import ESPressioSystem.LazyLock
import ESPressioSystem.SequentialResolution

set_option autoImplicit false

/-!
# `Resolve` of a lock, when no other thread and no provider change gets in between

The steps that one thread takes by itself amount to the one call of the sequential model.
-/
namespace ESPressioSystem.LazyLock
open Transition SynchronizationProvider SequentialResolution

section
variable {Thread : Type} [DecidableEq Thread] {k : Kind Thread}

def Pointer.target : Pointer → Target
  | .fallback => .fallback
  | .created _ => .owned

def Lock.view (s : Lock k) : LockState :=
  ⟨s.owned.isSome, s.resolved.map Pointer.target, s.resolutionGuard⟩

/-- The steps of a thread inside `Resolve`, while every call of a factory ends as given. -/
def Own (outcome : ProviderId → Outcome) (t : Thread) (a : Action k) : Prop :=
  a = .advance t ∨ ∃ p, a = .create t (outcome p)

/-- The thread gets from `s` to `s'` by its own steps only. -/
def Alone (storage : ProviderStorage) (outcome : ProviderId → Outcome) (t : Thread) (s s' : Lock k) :
    Prop :=
  ∃ as, (∀ a ∈ as, Own outcome t a) ∧ run (step storage) s as = some s'

variable {storage : ProviderStorage} {outcome : ProviderId → Outcome} {t : Thread} {s s' s'' : Lock k}
  {op : k.primitive.Op}

theorem Alone.trans (h : Alone storage outcome t s s') (h' : Alone storage outcome t s' s'') :
    Alone storage outcome t s s'' := by
  obtain ⟨as, has, hrun⟩ := h
  obtain ⟨bs, hbs, hrun'⟩ := h'
  refine ⟨as ++ bs, fun a ha => ?_, run_trans _ hrun hrun'⟩
  rcases List.mem_append.mp ha with ha | ha
  · exact has a ha
  · exact hbs a ha

theorem alone_advance (h : advance storage s t = some s') : Alone storage outcome t s s' :=
  ⟨[.advance t], fun _ ha => .inl (List.mem_singleton.mp ha), (run_singleton _ _ _).trans h⟩

theorem alone_create {p : ProviderId} (h : create s t (outcome p) = some s') :
    Alone storage outcome t s s' :=
  ⟨[.create t (outcome p)], fun _ ha => .inr ⟨p, List.mem_singleton.mp ha⟩,
    (run_singleton _ _ _).trans h⟩

theorem goto_pc (s : Lock k) (t : Thread) (c : Pc k.primitive.Op) : (s.goto t c).pc t = c :=
  Function.update_self _ _ _

def Lock.entered (s : Lock k) (t : Thread) (op : k.primitive.Op) : Lock k :=
  { s.goto t (.loadProvider op) with resolutionGuard := true }

def Lock.left (s : Lock k) (t : Thread) (op : k.primitive.Op) : Lock k :=
  { s.goto t (.callPrimitive op (selected s.owned)) with
    resolved := some (selected s.owned)
    resolutionGuard := false }

theorem alone_enter (hpc : s.pc t = .loadResolved op) (hr : s.resolved = none)
    (free : s.resolutionGuard = false) : Alone storage outcome t s (s.entered t op) := by
  have load : Alone storage outcome t s (s.goto t (.testAndSet op)) :=
    alone_advance (by simp only [advance, hpc, hr])
  have enter : Alone storage outcome t (s.goto t (.testAndSet op))
      { s.goto t (.reloadResolved op) with resolutionGuard := true } :=
    alone_advance (by simp [advance, Lock.goto, free])
  have reload : Alone storage outcome t { s.goto t (.reloadResolved op) with resolutionGuard := true }
      (s.entered t op) :=
    alone_advance (by simp [advance, Lock.goto, Lock.entered, hr])
  exact (load.trans enter).trans reload

theorem alone_leave (hpc : s.pc t = .selectPrimitive op) :
    Alone storage outcome t s (s.left t op) := by
  have select : Alone storage outcome t s (s.goto t (.storeResolved op (selected s.owned))) :=
    alone_advance (by simp only [advance, hpc])
  have publish : Alone storage outcome t (s.goto t (.storeResolved op (selected s.owned)))
      { s.goto t (.clearGuard op (selected s.owned)) with resolved := some (selected s.owned) } :=
    alone_advance (by simp [advance, Lock.goto])
  have leave : Alone storage outcome t
      { s.goto t (.clearGuard op (selected s.owned)) with resolved := some (selected s.owned) }
      (s.left t op) :=
    alone_advance (by simp [advance, Lock.goto, Lock.left])
  exact (select.trans publish).trans leave

variable (storage outcome)

theorem create_agrees {p : ProviderId} (hpc : s.pc t = .callFactory op p)
    (hp : provider storage = some p) :
    ∃ s', create s t (outcome p) = some s' ∧ s'.pc = Function.update s.pc t (.selectPrimitive op) ∧
      s'.view = (createOwned k.factory storage outcome s.view).1 ∧
      s'.factoryCalls = s.factoryCalls ++ (createOwned k.factory storage outcome s.view).2 ∧
      s'.history = s.history := by
  simp only [create, hpc, createOwned, hp]
  cases outcome p with
  | object | null | exception => exact ⟨_, rfl, rfl, rfl, rfl, rfl⟩

theorem alone_try (hpc : s.pc t = .loadProvider op) :
    ∃ s', Alone storage outcome t s s' ∧ s'.pc = Function.update s.pc t (.selectPrimitive op) ∧
      s'.view = (createOwned k.factory storage outcome s.view).1 ∧
      s'.factoryCalls = s.factoryCalls ++ (createOwned k.factory storage outcome s.view).2 ∧
      s'.history = s.history := by
  cases hp : provider storage with
  | none =>
    have skip : Alone storage outcome t s (s.goto t (.selectPrimitive op)) :=
      alone_advance (by simp only [advance, hpc, hp])
    simp only [createOwned, hp, List.append_nil]
    exact ⟨_, skip, rfl, rfl, rfl, rfl⟩
  | some p =>
    have ask : Alone storage outcome t s (s.goto t (.callFactory op p)) :=
      alone_advance (by simp only [advance, hpc, hp])
    obtain ⟨s', made, hmoved, rest⟩ :=
      create_agrees storage outcome (goto_pc s t (.callFactory op p)) hp
    refine ⟨s', ask.trans (alone_create made), hmoved.trans ?_, rest⟩
    exact Function.update_idem _ _ _

structure Agrees (s s' : Lock k) (t : Thread) (op : k.primitive.Op) (r : LockResolution) : Prop where
  pc : ∃ p, s'.pc = Function.update s.pc t (.callPrimitive op p) ∧ p.target = r.target
  lock : s'.view = r.lock
  factoryCalls : s'.factoryCalls = s.factoryCalls ++ r.factoryCalls
  history : s'.history = s.history

theorem selected_target (owned : Option ℕ) :
    (selected owned).target = if owned.isSome then .owned else .fallback := by
  cases owned <;> rfl

/-- A thread that is left to itself resolves the lock as the sequential model says. -/
theorem resolve_alone (hpc : s.pc t = .loadResolved op) (free : s.resolutionGuard = false) :
    ∃ r s', resolve k.factory storage outcome s.view = .returned r ∧
      Alone storage outcome t s s' ∧ Agrees s s' t op r := by
  cases hr : s.resolved with
  | some p =>
    have known : s.view.resolved = some p.target := by
      simp only [Lock.view, hr, Option.map_some]
    exact ⟨_, s.goto t (.callPrimitive op p), resolve_resolved _ _ _ known,
      alone_advance (by simp only [advance, hpc, hr]), ⟨p, rfl, rfl⟩, rfl,
      (List.append_nil _).symm, rfl⟩
  | none =>
    have entered : Alone storage outcome t s (s.entered t op) := alone_enter hpc hr free
    have inside : (s.entered t op).pc t = .loadProvider op := goto_pc s t _
    obtain ⟨u, tried, hpcu, hview, hcalls, hhistory⟩ := alone_try storage outcome inside
    have chosen : u.pc t = .selectPrimitive op := by rw [hpcu, Function.update_self]
    have unresolved : s.view.resolved = none := by simp only [Lock.view, hr, Option.map_none]
    have target : (if (createOwned k.factory storage outcome (s.entered t op).view).1.owned
        then Target.owned else .fallback) = (selected u.owned).target := by
      rw [← hview, selected_target]
      rfl
    refine ⟨_, u.left t op, resolve_unresolved _ _ _ unresolved free rfl target,
      (entered.trans tried).trans (alone_leave chosen), ⟨selected u.owned, ?_, rfl⟩, ?_, hcalls,
      hhistory⟩
    · change Function.update u.pc t (.callPrimitive op (selected u.owned)) = _
      rw [hpcu, Function.update_idem]
      exact Function.update_idem _ _ _
    · change (⟨u.view.owned, _, false⟩ : LockState) = _
      rw [hview]
      rfl

end

end ESPressioSystem.LazyLock
