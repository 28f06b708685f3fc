import ESPressioSystem.LazyLock

set_option autoImplicit false
namespace ESPressioSystem.LazyLock
open Transition SharedObject SynchronizationProvider

section
variable {Thread : Type} [DecidableEq Thread] {k : Kind Thread}

inductive Step (storage : ProviderStorage) (s : Lock k) : Action k → Lock k → Prop where
  | invoke {t : Thread} {op : k.primitive.Op} (hpc : s.pc t = .idle) :
      Step storage s (.invoke t op) (s.goto t (.loadResolved op))
  | fastPath {t : Thread} {op : k.primitive.Op} {resolved : Pointer}
      (hpc : s.pc t = .loadResolved op) (h : s.resolved = some resolved) :
      Step storage s (.advance t) (s.goto t (.callPrimitive op resolved))
  | slowPath {t : Thread} {op : k.primitive.Op} (hpc : s.pc t = .loadResolved op) :
      Step storage s (.advance t) (s.goto t (.testAndSet op))
  | spin {t : Thread} {op : k.primitive.Op} (hpc : s.pc t = .testAndSet op) :
      Step storage s (.advance t) s
  | enter {t : Thread} {op : k.primitive.Op} (hpc : s.pc t = .testAndSet op)
      (h : s.resolutionGuard = false) :
      Step storage s (.advance t) { s.goto t (.reloadResolved op) with resolutionGuard := true }
  | alreadyResolved {t : Thread} {op : k.primitive.Op} {resolved : Pointer}
      (hpc : s.pc t = .reloadResolved op) (h : s.resolved = some resolved) :
      Step storage s (.advance t) (s.goto t (.clearGuard op resolved))
  | unresolved {t : Thread} {op : k.primitive.Op} (hpc : s.pc t = .reloadResolved op)
      (h : s.resolved = none) : Step storage s (.advance t) (s.goto t (.loadProvider op))
  | provided {t : Thread} {op : k.primitive.Op} {p : ProviderId}
      (hpc : s.pc t = .loadProvider op) (h : provider storage = some p) :
      Step storage s (.advance t) (s.goto t (.callFactory op p))
  | unprovided {t : Thread} {op : k.primitive.Op} (hpc : s.pc t = .loadProvider op)
      (h : provider storage = none) :
      Step storage s (.advance t) (s.goto t (.selectPrimitive op))
  | created {t : Thread} {op : k.primitive.Op} {p : ProviderId} (outcome : Outcome)
      {s' : Lock k} (hpc : s.pc t = .callFactory op p) (h : create s t outcome = some s') :
      Step storage s (.create t outcome) s'
  | select {t : Thread} {op : k.primitive.Op} (hpc : s.pc t = .selectPrimitive op) :
      Step storage s (.advance t) (s.goto t (.storeResolved op (selected s.owned)))
  | publish {t : Thread} {op : k.primitive.Op} {resolved : Pointer}
      (hpc : s.pc t = .storeResolved op resolved) :
      Step storage s (.advance t) { s.goto t (.clearGuard op resolved) with resolved := some resolved }
  | leave {t : Thread} {op : k.primitive.Op} {resolved : Pointer}
      (hpc : s.pc t = .clearGuard op resolved) :
      Step storage s (.advance t) { s.goto t (.callPrimitive op resolved) with resolutionGuard := false }
  | performed {t : Thread} {op : k.primitive.Op} {resolved : Pointer} {ret : k.primitive.Ret}
      {after : k.primitive.State} (hpc : s.pc t = .callPrimitive op resolved)
      (h : k.primitive.perform (s.objects resolved) t op ret = some after) :
      Step storage s (.perform t ret) { s.goto t .idle with
        objects := Function.update s.objects resolved after
        history := s.history ++ [⟨t, op, ret⟩] }

theorem advance_cases {storage : ProviderStorage} {s s' : Lock k} {t : Thread}
    (h : advance storage s t = some s') : Step storage s (.advance t) s' := by
  unfold advance at h
  cases hpc : s.pc t with
  | idle | callFactory _ _ | callPrimitive _ _ => simp [hpc] at h
  | loadResolved op =>
    simp only [hpc] at h
    cases hr : s.resolved with
    | some resolved =>
      simp only [hr, Option.some.injEq] at h
      exact h ▸ .fastPath hpc hr
    | none =>
      simp only [hr, Option.some.injEq] at h
      exact h ▸ .slowPath hpc
  | testAndSet op =>
    simp only [hpc] at h
    split at h
    · exact Option.some.inj h ▸ .spin hpc
    · rename_i hg
      exact Option.some.inj h ▸ .enter hpc (Bool.eq_false_iff.mpr hg)
  | reloadResolved op =>
    simp only [hpc] at h
    cases hr : s.resolved with
    | some resolved =>
      simp only [hr, Option.some.injEq] at h
      exact h ▸ .alreadyResolved hpc hr
    | none =>
      simp only [hr, Option.some.injEq] at h
      exact h ▸ .unresolved hpc hr
  | loadProvider op =>
    simp only [hpc] at h
    cases hp : provider storage with
    | some p =>
      simp only [hp, Option.some.injEq] at h
      exact h ▸ .provided hpc hp
    | none =>
      simp only [hp, Option.some.injEq] at h
      exact h ▸ .unprovided hpc hp
  | selectPrimitive op =>
    simp only [hpc, Option.some.injEq] at h
    exact h ▸ .select hpc
  | storeResolved op resolved =>
    simp only [hpc, Option.some.injEq] at h
    exact h ▸ .publish hpc
  | clearGuard op resolved =>
    simp only [hpc, Option.some.injEq] at h
    exact h ▸ .leave hpc

theorem step_cases {storage : ProviderStorage} {s s' : Lock k} {a : Action k}
    (h : step storage s a = some s') : Step storage s a s' := by
  cases a with
  | invoke t op =>
    simp only [step, invoke] at h
    split at h
    · rename_i hpc
      exact Option.some.inj h ▸ .invoke hpc
    · cases h
  | advance t => exact advance_cases h
  | create t outcome =>
    have hc := h
    simp only [step, create] at hc
    split at hc
    · rename_i hpc
      exact .created outcome hpc h
    · cases hc
  | perform t ret =>
    simp only [step, perform] at h
    split at h
    · rename_i hpc
      obtain ⟨after, hafter, rfl⟩ := Option.map_eq_some_iff.mp h
      exact .performed hpc hafter
    · cases h

/-- The thread is between acquiring and clearing the guard flag. -/
def Pc.InGuard {Op : Type} : Pc Op → Prop
  | .reloadResolved _ | .loadProvider _ | .callFactory _ _ | .selectPrimitive _
  | .storeResolved _ _ | .clearGuard _ _ => True
  | .idle | .loadResolved _ | .testAndSet _ | .callPrimitive _ _ => False

/-- The factory has been dealt with and the result is not yet published. -/
def Pc.Chosen {Op : Type} : Pc Op → Prop
  | .selectPrimitive _ | .storeResolved _ _ => True
  | _ => False

/-- What a thread knows of the shared fields at its program point. -/
def Knows (resolved : Option Pointer) (owned : Option ℕ) (factoryCalls : List FactoryCall)
    {Op : Type} : Pc Op → Prop
  | .loadProvider _ | .callFactory _ _ => resolved = none ∧ owned = none ∧ factoryCalls = []
  | .selectPrimitive _ => resolved = none
  | .storeResolved _ p => resolved = none ∧ p = selected owned
  | .clearGuard _ p | .callPrimitive _ p => resolved = some p
  | .idle | .loadResolved _ | .testAndSet _ | .reloadResolved _ => True

structure Invariant (s : Lock k) : Prop where
  token : Token s.resolutionGuard fun t => (s.pc t).InGuard
  knows : ∀ t, Knows s.resolved s.owned s.factoryCalls (s.pc t)
  untouched : s.resolved = none → (∀ t, ¬ (s.pc t).Chosen) → s.owned = none ∧ s.factoryCalls = []
  calledOnce : s.factoryCalls.length ≤ 1
  published : ∀ p, s.resolved = some p → p = selected s.owned
  unused : s.resolved = none → s.history = [] ∧ s.objects .fallback = k.primitive.init ∧
    s.objects (selected s.owned) = k.primitive.init
  single : ∀ p, s.resolved = some p →
    run k.primitive.next k.primitive.init s.history = some (s.objects p)

omit [DecidableEq Thread] in
theorem initial_invariant (k : Kind Thread) : Invariant (initial k) where
  token := ⟨by simp [initial, Pc.InGuard], fun _ _ h => absurd h (by simp [initial, Pc.InGuard])⟩
  knows _ := trivial
  untouched _ _ := ⟨rfl, rfl⟩
  calledOnce := Nat.zero_le 1
  published _ h := nomatch h
  unused _ := ⟨rfl, rfl, rfl⟩
  single _ h := nomatch h

theorem keepToken {s : Lock k} (hi : Invariant s) {t : Thread} {c : Pc k.primitive.Op}
    (h : c.InGuard ↔ (s.pc t).InGuard) :
    Token s.resolutionGuard fun u => (Function.update s.pc t c u).InGuard := by
  refine hi.token.keep fun u => ?_
  by_cases hu : u = t
  · subst u
    rw [Function.update_self]
    exact h
  · rw [Function.update_of_ne hu]

theorem goto_invariant {s : Lock k} (hi : Invariant s) {t : Thread} {c : Pc k.primitive.Op}
    {g : Bool} (token : Token g fun u => (Function.update s.pc t c u).InGuard)
    (knows : Knows s.resolved s.owned s.factoryCalls c) (chosen : (s.pc t).Chosen → c.Chosen) :
    Invariant { s.goto t c with resolutionGuard := g } where
  token := token
  knows := (Function.forall_update_iff s.pc fun _ d => Knows s.resolved s.owned s.factoryCalls d).mpr
    ⟨knows, fun u _ => hi.knows u⟩
  untouched hr hnone := by
    refine hi.untouched hr fun u hu => ?_
    apply hnone u
    change (Function.update s.pc t c u).Chosen
    by_cases hut : u = t
    · subst u
      rw [Function.update_self]
      exact chosen hu
    · rwa [Function.update_of_ne hut]
  calledOnce := hi.calledOnce
  published := hi.published
  unused := hi.unused
  single := hi.single

/-- A thread that holds the guard is the only one whose knowledge is at stake. -/
theorem knows_outside {resolved : Option Pointer} {owned owned' : Option ℕ}
    {calls calls' : List FactoryCall} {Op : Type} {c : Pc Op} (hc : ¬ c.InGuard)
    (h : Knows resolved owned calls c) : Knows resolved owned' calls' c := by
  cases c with
  | idle | loadResolved _ | testAndSet _ => trivial
  | callPrimitive _ _ => exact h
  | _ => exact absurd trivial hc

omit [DecidableEq Thread] in
theorem outside_of_ne {s : Lock k} (hi : Invariant s) {t u : Thread} (ht : (s.pc t).InGuard)
    (hu : u ≠ t) : ¬ (s.pc u).InGuard :=
  fun h => hu (hi.token.single u t h ht)

theorem update_fallback {σ : Type} (objects : Pointer → σ) (n : ℕ) (x : σ) :
    Function.update objects (.created n) x .fallback = objects .fallback :=
  Function.update_of_ne (by simp) x objects

omit [DecidableEq Thread] in
theorem Invariant.knows_at {s : Lock k} (hi : Invariant s) {t : Thread} {c : Pc k.primitive.Op}
    (hpc : s.pc t = c) : Knows s.resolved s.owned s.factoryCalls c :=
  hpc ▸ hi.knows t

/-- Moves that stay inside the guard, or outside it. -/
theorem move_invariant {s : Lock k} (hi : Invariant s) {t : Thread} {b c : Pc k.primitive.Op}
    (hpc : s.pc t = b) (same : c.InGuard ↔ b.InGuard)
    (knows : Knows s.resolved s.owned s.factoryCalls c) (chosen : b.Chosen → c.Chosen) :
    Invariant (s.goto t c) := by
  subst hpc
  exact goto_invariant hi (keepToken hi same) knows chosen

/-- Whatever the factory's call has stored, the primitive to be selected is as it was made. -/
theorem factory_invariant {s : Lock k} (hi : Invariant s) {t : Thread} {op : k.primitive.Op}
    {p : ProviderId} (hpc : s.pc t = .callFactory op p) (owned : Option ℕ)
    (objects : Pointer → k.primitive.State) (fallback : objects .fallback = k.primitive.init)
    (made : objects (selected owned) = k.primitive.init) :
    Invariant { s.goto t (.selectPrimitive op) with
      owned := owned
      objects := objects
      factoryCalls := s.factoryCalls ++ [⟨p, k.factory⟩] } := by
  obtain ⟨hr, _, hcalls⟩ := hi.knows_at hpc
  have inside : (s.pc t).InGuard := by rw [hpc]; trivial
  have unpublished : ∀ q, s.resolved ≠ some q := by simp [hr]
  refine ⟨keepToken hi (by rw [hpc]; exact Iff.rfl), ?_, fun _ hnone => ?_, ?_, ?_, ?_, ?_⟩
  · exact (Function.forall_update_iff s.pc fun _ d => Knows s.resolved owned _ d).mpr
      ⟨hr, fun u hu => knows_outside (outside_of_ne hi inside hu) (hi.knows u)⟩
  · have chosen : (Function.update s.pc t (.selectPrimitive op) t).Chosen := by
      rw [Function.update_self]
      trivial
    exact absurd chosen (hnone t)
  · change (s.factoryCalls ++ [(⟨p, k.factory⟩ : FactoryCall)]).length ≤ 1
    rw [hcalls]
    exact Nat.le_refl 1
  · exact fun q hq => absurd hq (unpublished q)
  · exact fun _ => ⟨(hi.unused hr).1, fallback, made⟩
  · exact fun q hq => absurd hq (unpublished q)

theorem create_invariant {s s' : Lock k} (hi : Invariant s) {t : Thread} {outcome : Outcome}
    {op : k.primitive.Op} {p : ProviderId} (hpc : s.pc t = .callFactory op p)
    (h : create s t outcome = some s') : Invariant s' := by
  obtain ⟨hr, howned, _⟩ := hi.knows_at hpc
  obtain ⟨_, fallback, _⟩ := hi.unused hr
  have outcomes := factory_invariant hi hpc
  simp only [create, hpc] at h
  cases outcome with
  | object =>
    rw [← Option.some.inj h]
    refine outcomes (some _) (Function.update s.objects (.created _) k.primitive.init) ?_ ?_
    · rw [update_fallback]
      exact fallback
    · exact Function.update_self _ _ _
  | null =>
    rw [← Option.some.inj h]
    exact outcomes none s.objects fallback fallback
  | exception =>
    rw [← Option.some.inj h]
    exact outcomes s.owned s.objects fallback (by rw [howned]; exact fallback)

theorem publish_invariant {s : Lock k} (hi : Invariant s) {t : Thread} {op : k.primitive.Op}
    {resolved : Pointer} (hpc : s.pc t = .storeResolved op resolved) :
    Invariant { s.goto t (.clearGuard op resolved) with resolved := some resolved } := by
  obtain ⟨hr, hselected⟩ := hi.knows_at hpc
  obtain ⟨hhistory, _, hobject⟩ := hi.unused hr
  have inside : (s.pc t).InGuard := by rw [hpc]; trivial
  refine ⟨keepToken hi (by rw [hpc]; exact Iff.rfl), ?_, nofun, hi.calledOnce, ?_, nofun, ?_⟩
  · refine (Function.forall_update_iff s.pc fun _ d =>
      Knows (some resolved) s.owned s.factoryCalls d).mpr ⟨rfl, fun u hu => ?_⟩
    have before := hi.knows u
    have outside := outside_of_ne hi inside hu
    cases hc : s.pc u with
    | idle | loadResolved _ | testAndSet _ => trivial
    | callPrimitive _ q =>
      rw [hc] at before
      cases hr.symm.trans before
    | _ =>
      rw [hc] at outside
      exact absurd trivial outside
  · intro q hq
    exact (Option.some.inj hq).symm.trans hselected
  · intro q hq
    change run k.primitive.next k.primitive.init s.history = some (s.objects q)
    rw [hhistory, ← Option.some.inj hq, hselected, hobject, run_nil]

theorem perform_invariant {s : Lock k} (hi : Invariant s) {t : Thread} {op : k.primitive.Op}
    {resolved : Pointer} {ret : k.primitive.Ret} {after : k.primitive.State}
    (hpc : s.pc t = .callPrimitive op resolved)
    (h : k.primitive.perform (s.objects resolved) t op ret = some after) :
    Invariant { s.goto t .idle with
      objects := Function.update s.objects resolved after
      history := s.history ++ [⟨t, op, ret⟩] } := by
  have hr : s.resolved = some resolved := hi.knows_at hpc
  have moved : Invariant (s.goto t .idle) := move_invariant hi hpc Iff.rfl trivial id
  refine ⟨moved.token, moved.knows, moved.untouched, moved.calledOnce, moved.published, ?_, ?_⟩
  · intro hnone
    cases hr.symm.trans hnone
  · intro q hq
    have hqr : q = resolved := Option.some.inj (hq.symm.trans hr)
    subst q
    change run k.primitive.next k.primitive.init (s.history ++ [⟨t, op, ret⟩]) =
      some (Function.update s.objects resolved after resolved)
    rw [Function.update_self]
    exact run_trans _ (hi.single resolved hr) ((run_singleton _ _ _).trans h)

theorem step_invariant {storage : ProviderStorage} {s s' : Lock k} {a : Action k}
    (hi : Invariant s) (h : Step storage s a s') : Invariant s' := by
  cases h with
  | invoke hpc => exact move_invariant hi hpc Iff.rfl trivial id
  | fastPath hpc hr => exact move_invariant hi hpc Iff.rfl hr id
  | slowPath hpc => exact move_invariant hi hpc Iff.rfl trivial id
  | spin _ => exact hi
  | @enter t op hpc hg =>
    have free := hi.token
    rw [hg] at free
    refine goto_invariant hi (free.take (t := t) ?_ ?_) trivial (by rw [hpc]; exact id)
    · rw [Function.update_self]
      trivial
    · intro u hu
      rw [Function.update_of_ne hu]
  | alreadyResolved hpc hr => exact move_invariant hi hpc Iff.rfl hr id
  | @unresolved t op hpc hr =>
    have nobody : ∀ u, ¬ (s.pc u).Chosen := by
      intro u hu
      have inside : (s.pc u).InGuard := by
        cases hc : s.pc u <;> rw [hc] at hu <;> trivial
      have hut := hi.token.single u t inside (by rw [hpc]; trivial)
      rw [hut, hpc] at hu
      exact hu
    exact move_invariant hi hpc Iff.rfl ⟨hr, hi.untouched hr nobody⟩ False.elim
  | provided hpc _ =>
    have known := hi.knows_at hpc
    exact move_invariant hi hpc Iff.rfl known False.elim
  | unprovided hpc _ => exact move_invariant hi hpc Iff.rfl (hi.knows_at hpc).1 False.elim
  | created outcome hpc hcreate => exact create_invariant hi hpc hcreate
  | select hpc => exact move_invariant hi hpc Iff.rfl ⟨hi.knows_at hpc, rfl⟩ id
  | publish hpc => exact publish_invariant hi hpc
  | @leave t op resolved hpc =>
    have known := hi.knows_at hpc
    refine goto_invariant hi (hi.token.drop (t := t) ?_ ?_ ?_) known (by rw [hpc]; exact False.elim)
    · rw [hpc]
      trivial
    · rw [Function.update_self]
      exact id
    · intro u hu
      rw [Function.update_of_ne hu]
  | performed hpc hperform => exact perform_invariant hi hpc hperform

theorem next_cases {s s' : Lock k} {a : ProviderStorage × Action k} (h : next s a = some s') :
    Step a.1 s a.2 s' :=
  step_cases h

theorem next_invariant {s s' : Lock k} {a : ProviderStorage × Action k} (hi : Invariant s)
    (h : next s a = some s') : Invariant s' :=
  step_invariant hi (next_cases h)

theorem run_invariant {s s' : Lock k} {as : List (ProviderStorage × Action k)} (hi : Invariant s)
    (h : run next s as = some s') : Invariant s' :=
  invariant_of_run (fun _ _ _ => next_invariant) hi h

end
end ESPressioSystem.LazyLock
