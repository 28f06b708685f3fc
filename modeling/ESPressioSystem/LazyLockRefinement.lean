import ESPressioSystem.Locks
import ESPressioSystem.Refinement

set_option autoImplicit false

/-!
# A lazily resolved lock can be taken for a lock that is there from the start
-/
namespace ESPressioSystem.LazyLockRefinement
open Transition Refinement SharedObject SynchronizationProvider LazyLock Locks

section
variable {Thread : Type}

def ofPrimitive (p : Primitive Thread) : AtomicObject Thread p.Op p.Ret where
  State := p.State
  Internal := Empty
  init := p.init
  perform := p.perform
  internal := fun _ i => i.elim

def callStatus {Op Ret : Type} (c : Pc Op) : Status Op Ret :=
  (pending c).elim .idle .called

variable [DecidableEq Thread] {k : Kind Thread}

def lockShows (w : World k) : WorldAction k → List (CallEvent Thread k.primitive.Op k.primitive.Ret)
  | .act (.invoke t op) => [.invoked t op]
  | .act (.perform t ret) =>
    match w.lock.pc t with
    | .callPrimitive op _ => [.returned t op ret]
    | _ => []
  | .act (.advance _) | .act (.create _ _) | .change _ => []

/-- The atomic lock is in the state that the completed calls have left. -/
structure Matches (w : World k) (c : Configuration (ofPrimitive k.primitive)) : Prop where
  invariant : Invariant w.lock
  object : run k.primitive.next k.primitive.init w.lock.history = some c.object
  status : ∀ t, c.status t = callStatus (w.lock.pc t)

variable {storage : ProviderStorage} {s s' : Lock k} {w w' : World k}
  {c : Configuration (ofPrimitive k.primitive)}

theorem status_goto {status : Thread → Status k.primitive.Op k.primitive.Ret}
    (h : ∀ u, status u = callStatus (s.pc u)) (t : Thread) (b : Pc k.primitive.Op) (u : Thread) :
    Function.update status t (callStatus b) u = callStatus ((s.goto t b).pc u) := by
  change _ = callStatus (Function.update s.pc t b u)
  by_cases hu : u = t
  · subst hu
    rw [Function.update_self, Function.update_self]
  · rw [Function.update_of_ne hu, Function.update_of_ne hu, h u]

theorem resolving_step {a : LazyLock.Action k} (called : ∀ t op, a ≠ .invoke t op)
    (resolving : ∀ t ret, a ≠ .perform t ret) (h : Step storage s a s') :
    s'.history = s.history ∧
      ∀ u, (callStatus (s'.pc u) : Status k.primitive.Op k.primitive.Ret) = callStatus (s.pc u) := by
  have kept : ∀ t b, pending b = pending (s.pc t) →
      ∀ u, (callStatus ((s.goto t b).pc u) : Status k.primitive.Op k.primitive.Ret) =
        callStatus (s.pc u) := by
    intro t b hb u
    rw [← status_goto (fun _ => rfl) t b u, callStatus, hb]
    exact congrFun (Function.update_eq_self t fun v => callStatus (s.pc v)) u
  cases h with
  | invoke _ => exact absurd rfl (called _ _)
  | performed _ _ => exact absurd rfl (resolving _ _)
  | spin _ => exact ⟨rfl, fun _ => rfl⟩
  | created outcome hpc hcreate =>
    obtain ⟨moved, same, _⟩ := create_goto hpc hcreate
    refine ⟨same, fun u => ?_⟩
    rw [moved]
    exact kept _ _ (by rw [hpc]; rfl) u
  | fastPath hpc _ | slowPath hpc | enter hpc _ | alreadyResolved hpc _ | unresolved hpc _
  | provided hpc _ | unprovided hpc _ | select hpc | publish hpc | leave hpc =>
    exact ⟨rfl, kept _ _ (by rw [hpc]; rfl)⟩

theorem matches_invoked (hw : Matches w c) {t : Thread} {op : k.primitive.Op}
    (h : Step w.storage w.lock (.invoke t op) w'.lock) :
    ∃ moves d, run move c moves = some d ∧
      trace move moveShows c moves = [.invoked t op] ∧ Matches w' d := by
  obtain ⟨lock, hlock⟩ : ∃ lock, w'.lock = lock := ⟨_, rfl⟩
  have invariant := step_invariant hw.invariant h
  rw [hlock] at h
  cases h with
  | invoke hpc =>
    have idle : c.status t = .idle := by rw [hw.status, hpc]; rfl
    obtain ⟨moved, seen⟩ := move_invoke idle op
    refine ⟨_, _, moved, seen, invariant, ?_, ?_⟩
    · rw [hlock]
      exact hw.object
    · rw [hlock]
      exact status_goto hw.status t (.loadResolved op)

theorem matches_performed (hw : Matches w c) {t : Thread} {ret : k.primitive.Ret}
    (h : Step w.storage w.lock (.perform t ret) w'.lock) :
    ∃ moves d, run move c moves = some d ∧
      trace move moveShows c moves = lockShows w (.act (.perform t ret)) ∧ Matches w' d := by
  obtain ⟨lock, hlock⟩ : ∃ lock, w'.lock = lock := ⟨_, rfl⟩
  have invariant := step_invariant hw.invariant h
  rw [hlock] at h
  cases h with
  | @performed _ op p _ after hpc hperform =>
    have hr : w.lock.resolved = some p := hw.invariant.knows_at hpc
    have same : c.object = w.lock.objects p :=
      Option.some.inj (hw.object.symm.trans (hw.invariant.single p hr))
    have called : c.status t = .called op := by rw [hw.status, hpc]; rfl
    have performed : (ofPrimitive k.primitive).perform c.object t op ret = some after :=
      same ▸ hperform
    obtain ⟨moved, seen⟩ := move_complete called performed
    refine ⟨_, _, moved, ?_, invariant, ?_, ?_⟩
    · rw [seen, lockShows, hpc]
    · rw [hlock]
      exact run_trans _ hw.object ((run_singleton _ _ _).trans performed)
    · rw [hlock]
      exact status_goto hw.status t .idle

theorem matches_step (w : World k) (a : WorldAction k) (w' : World k)
    (c : Configuration (ofPrimitive k.primitive)) (hw : Matches w c)
    (h : worldNext w a = some w') :
    ∃ moves d, run move c moves = some d ∧
      trace move moveShows c moves = lockShows w a ∧ Matches w' d := by
  cases a with
  | change change =>
    have same : w'.lock = w.lock := by rw [← Option.some.inj h]
    refine ⟨[], c, rfl, rfl, ?_⟩
    exact ⟨same ▸ hw.invariant, same ▸ hw.object, same ▸ hw.status⟩
  | act b =>
    obtain ⟨lock, hlock, rfl⟩ := Option.map_eq_some_iff.mp h
    have taken := step_cases hlock
    have silent : (∀ t op, b ≠ .invoke t op) → (∀ t ret, b ≠ .perform t ret) →
        Matches { w with lock := lock } c := by
      intro called resolving
      obtain ⟨same, status⟩ := resolving_step called resolving taken
      refine ⟨step_invariant hw.invariant taken, ?_, fun u => ?_⟩
      · change run _ _ lock.history = _
        rw [same]
        exact hw.object
      · exact (hw.status u).trans (status u).symm
    cases b with
    | invoke t op => exact matches_invoked hw taken
    | perform t ret => exact matches_performed hw taken
    | advance t => exact ⟨[], c, rfl, rfl, silent nofun nofun⟩
    | create t outcome => exact ⟨[], c, rfl, rfl, silent nofun nofun⟩

omit [DecidableEq Thread] in
theorem matches_initial (k : Kind Thread) (storage : ProviderStorage) :
    Matches (initialWorld k storage) (.initial (ofPrimitive k.primitive)) :=
  ⟨LazyLock.initial_invariant k, rfl, fun _ => rfl⟩

/-- Whatever threads call, however the factories behave and whenever providers come and go,
the calls and their returns are those of one lock made before all of them. -/
theorem lazy_lock_linearizable (k : Kind Thread) (storage : ProviderStorage)
    {as : List (WorldAction k)} {w : World k}
    (h : run worldNext (initialWorld k storage) as = some w) :
    Linearizable (ofPrimitive k.primitive)
      (trace worldNext lockShows (initialWorld k storage) as) :=
  linearizable_of_simulation matches_step (matches_initial k storage) h

theorem lazy_lock_linearizable_late :
    ∃ w, run worldNext (initialWorld (readWriteLock ℕ) initialStorage)
        (lateProvider (LockOp.lock .shared) (LockOp.unlock .shared) true) = some w ∧
      Linearizable (ofPrimitive (readWriteLock ℕ).primitive)
        [.invoked 0 (LockOp.lock .shared), .returned 0 (LockOp.lock .shared) true,
          .invoked 0 (LockOp.unlock .shared), .returned 0 (LockOp.unlock .shared) true] := by
  have completes : (run worldNext (initialWorld (readWriteLock ℕ) initialStorage)
      (lateProvider (LockOp.lock .shared) (LockOp.unlock .shared) true)).isSome := by decide +kernel
  obtain ⟨w, hw⟩ := Option.isSome_iff_exists.mp completes
  exact ⟨w, hw, lazy_lock_linearizable (readWriteLock ℕ) initialStorage hw⟩

end

end ESPressioSystem.LazyLockRefinement
