import Mathlib.Algebra.Order.BigOperators.Group.Finset
import ESPressioSystem.OnceOnlyResolution
import ESPressioSystem.Progress

set_option autoImplicit false

/-!
# `Resolve` of a lock returns, if nobody stops inside it
-/
namespace ESPressioSystem.LazyLockProgress
open Transition SharedObject SynchronizationProvider LazyLock Locks
  OnceOnlyResolution Progress

/-- The steps to the end of `Resolve`, those apart that find the guard taken. -/
def stepsLeft {Op : Type} : Pc Op → ℕ
  | .loadResolved _ => 8
  | .testAndSet _ => 7
  | .reloadResolved _ => 6
  | .loadProvider _ => 5
  | .callFactory _ _ => 4
  | .selectPrimitive _ => 3
  | .storeResolved _ _ => 2
  | .clearGuard _ _ => 1
  | .idle | .callPrimitive _ _ => 0

def Resolving {Op : Type} (c : Pc Op) : Prop := 0 < stepsLeft c

instance {Op : Type} (c : Pc Op) : Decidable (Resolving c) := inferInstanceAs (Decidable (0 < _))

def slowSteps {Op : Type} : Pc Op → ℕ
  | .loadResolved _ => 0
  | c => stepsLeft c

theorem inGuard_iff {Op : Type} (c : Pc Op) : c.InGuard ↔ 0 < slowSteps c ∧ slowSteps c < 7 := by
  cases c <;> simp [Pc.InGuard, slowSteps, stepsLeft]

theorem resolving_of_slow {Op : Type} {c : Pc Op} (h : 0 < slowSteps c) : Resolving c := by
  cases c with
  | loadResolved _ => exact Nat.succ_pos 7
  | _ => exact h

section
variable {Thread : Type} [DecidableEq Thread] {k : Kind Thread}

def OwnStep (t : Thread) : WorldAction k → Prop
  | .act (.advance u) | .act (.create u _) => u = t
  | .act (.invoke _ _) | .act (.perform _ _) | .change _ => False

variable {storage : ProviderStorage} {s s' : Lock k} {a : LazyLock.Action k} {t u : Thread}
  {op : k.primitive.Op}

theorem pc_after (s : Lock k) (t : Thread) (c : Pc k.primitive.Op) : (s.goto t c).pc t = c :=
  Function.update_self _ _ _

theorem inGuard_step (hs : Invariant s) (h : Step storage s a s')
    (inside : (s.pc (actor a)).InGuard) :
    slowSteps (s'.pc (actor a)) < slowSteps (s.pc (actor a)) ∧
      ((s'.pc (actor a)).InGuard ∨ s'.resolved.isSome) := by
  cases h with
  | invoke hpc | fastPath hpc _ | slowPath hpc | spin hpc | enter hpc _ | performed hpc _ =>
    rw [actor, hpc] at inside
    exact inside.elim
  | created outcome hpc hcreate =>
    rw [(create_goto hpc hcreate).1, actor, hpc, pc_after]
    exact ⟨Nat.lt_succ_self 3, .inl trivial⟩
  | leave hpc =>
    have hr := hs.knows_at hpc
    rw [actor, hpc]
    refine ⟨?_, .inr ?_⟩
    · exact (congrArg slowSteps (pc_after s _ _)).trans_lt Nat.zero_lt_one
    · exact Option.isSome_iff_exists.mpr ⟨_, hr⟩
  | alreadyResolved hpc _ | unresolved hpc _ | provided hpc _ | unprovided hpc _ | select hpc
  | publish hpc =>
    rw [actor, hpc]
    refine ⟨(congrArg slowSteps (pc_after s _ _)).trans_lt ?_, .inl ?_⟩
    · simp [slowSteps, stepsLeft]
    · exact (pc_after s _ _).symm ▸ trivial

theorem resolving_step (h : Step storage s a s') (inside : Resolving (s.pc (actor a)))
    (called : pending (s.pc (actor a)) = some op) :
    (pending (s'.pc (actor a)) = some op ∧ 0 < slowSteps (s'.pc (actor a))) ∨
      ∃ p, s'.pc (actor a) = .callPrimitive op p := by
  cases h with
  | invoke hpc | performed hpc _ =>
    rw [actor, hpc] at inside
    exact absurd inside (Nat.lt_irrefl 0)
  | spin hpc =>
    refine .inl ⟨called, ?_⟩
    rw [actor, hpc]
    exact Nat.succ_pos 6
  | created outcome hpc hcreate =>
    rw [(create_goto hpc hcreate).1, actor, pc_after]
    rw [actor, hpc] at called
    exact .inl ⟨called, Nat.succ_pos 2⟩
  | fastPath hpc _ | leave hpc =>
    rw [actor, hpc, pending, Option.some.injEq] at called
    subst called
    exact .inr ⟨_, pc_after s _ _⟩
  | slowPath hpc | enter hpc _ | alreadyResolved hpc _ | unresolved hpc _ | provided hpc _
  | unprovided hpc _ | select hpc | publish hpc =>
    rw [actor, hpc, pending] at called
    refine .inl ⟨(congrArg pending (pc_after s _ _)).trans called, ?_⟩
    exact (congrArg slowSteps (pc_after s _ _)).symm ▸ Nat.succ_pos _

theorem enter_step (hpc : s.pc t = .testAndSet op) (free : s.resolutionGuard = false)
    (h : step storage s (.advance t) = some s') : s'.pc t = .reloadResolved op := by
  simp only [step, advance, hpc, free, Bool.false_eq_true, if_false, Option.some.injEq] at h
  rw [← h]
  exact pc_after s t _

theorem load_step (hpc : s.pc t = .loadResolved op) (h : step storage s (.advance t) = some s') :
    s'.pc t = s.resolved.elim (.testAndSet op) (.callPrimitive op) := by
  cases hr : s.resolved with
  | none | some _ =>
    simp only [step, advance, hpc, hr, Option.some.injEq] at h
    rw [← h]
    exact pc_after s t _

/-- Once the pointer is published nobody enters the slow path. -/
theorem slowSteps_step {p : Pointer} (hs : Invariant s) (hr : s.resolved = some p)
    (h : step storage s a = some s') (u : Thread) : slowSteps (s'.pc u) ≤ slowSteps (s.pc u) := by
  have taken := step_cases h
  by_cases hu : u = actor a
  · subst hu
    by_cases inside : (s.pc (actor a)).InGuard
    · exact (inGuard_step hs taken inside).1.le
    · cases taken with
      | spin _ => exact Nat.le_refl _
      | slowPath hpc =>
        have moved := load_step hpc h
        rw [pc_after, hr] at moved
        cases moved
      | invoke hpc | fastPath hpc _ | enter hpc _ | performed hpc _ =>
        rw [actor, hpc]
        refine (congrArg slowSteps (pc_after s _ _)).trans_le ?_
        simp [slowSteps, stepsLeft]
      | created _ hpc _ | alreadyResolved hpc _ | unresolved hpc _ | provided hpc _
      | unprovided hpc _ | select hpc | publish hpc | leave hpc =>
        rw [actor, hpc] at inside
        exact absurd trivial inside
  · rw [step_pc_other taken hu]

end

section
variable {Thread : Type} [DecidableEq Thread] {k : Kind Thread} {w w' : World k}
  {a : WorldAction k} {t u : Thread} {op : k.primitive.Op}

theorem act_step {b : LazyLock.Action k} (h : worldNext w (.act b) = some w') :
    step w.storage w.lock b = some w'.lock := by
  obtain ⟨lock, hlock, rfl⟩ := Option.map_eq_some_iff.mp h
  exact hlock

theorem world_invariant (hw : Invariant w.lock) (h : worldNext w a = some w') :
    Invariant w'.lock := by
  cases a with
  | change c =>
    rw [← Option.some.inj h]
    exact hw
  | act b => exact step_invariant hw (step_cases (act_step h))

/-- Nothing but its own steps moves a thread that is inside `Resolve`. -/
theorem other_step (h : worldNext w a = some w') (inside : Resolving (w.lock.pc t))
    (other : ¬ OwnStep t a) : w'.lock.pc t = w.lock.pc t := by
  cases a with
  | change c => rw [← Option.some.inj h]
  | act b =>
    have taken := step_cases (act_step h)
    refine step_pc_other taken fun ht => ?_
    subst ht
    cases b with
    | advance u | create u _ => exact other rfl
    | invoke u op =>
      obtain ⟨lock, hlock⟩ : ∃ lock, w'.lock = lock := ⟨_, rfl⟩
      rw [hlock] at taken
      cases taken with
      | invoke hpc =>
        rw [actor, hpc] at inside
        exact absurd inside (Nat.lt_irrefl 0)
    | perform u ret =>
      obtain ⟨lock, hlock⟩ : ∃ lock, w'.lock = lock := ⟨_, rfl⟩
      rw [hlock] at taken
      cases taken with
      | performed hpc _ =>
        rw [actor, hpc] at inside
        exact absurd inside (Nat.lt_irrefl 0)

theorem own_step (h : worldNext w a = some w') (own : OwnStep t a) :
    ∃ b, actor b = t ∧ step w.storage w.lock b = some w'.lock ∧
      ∀ op, w.lock.pc t = .loadResolved op ∨ w.lock.pc t = .testAndSet op → b = .advance t := by
  cases a with
  | change c => exact own.elim
  | act b =>
    refine ⟨b, ?_, act_step h, fun op waits => ?_⟩
    · cases b with
      | advance u | create u _ => exact own
      | invoke _ _ | perform _ _ => exact own.elim
    · cases b with
      | advance u => rw [show u = t from own]
      | invoke _ _ | perform _ _ => exact own.elim
      | create u outcome =>
        have hu : u = t := own
        subst hu
        have made := act_step h
        simp only [step, create] at made
        rcases waits with hpc | hpc <;> · rw [hpc] at made; cases made

def Calls (t : Thread) (op : k.primitive.Op) (w : World k) : Prop :=
  pending (w.lock.pc t) = some op ∧ Resolving (w.lock.pc t)

def Reached (t : Thread) (op : k.primitive.Op) (w : World k) : Prop :=
  Invariant w.lock ∧ ∃ p, w.lock.pc t = .callPrimitive op p

theorem slow_step (h : worldNext w a = some w') (calls : Calls t op w)
    (slow : 0 < slowSteps (w.lock.pc t) ∨ OwnStep t a) :
    (Calls t op w' ∧ 0 < slowSteps (w'.lock.pc t)) ∨ ∃ p, w'.lock.pc t = .callPrimitive op p := by
  by_cases own : OwnStep t a
  · obtain ⟨b, rfl, hb, _⟩ := own_step h own
    refine (resolving_step (step_cases hb) calls.2 calls.1).imp (fun ⟨called, left⟩ => ?_) id
    exact ⟨⟨called, resolving_of_slow left⟩, left⟩
  · have left := slow.resolve_right own
    have same := other_step h calls.2 own
    refine .inl ⟨?_, same ▸ left⟩
    rw [Calls, same]
    exact calls

theorem calls_step (hw : Invariant w.lock ∧ Calls t op w) (h : worldNext w a = some w') :
    (Invariant w'.lock ∧ Calls t op w') ∨ Reached t op w' := by
  have invariant := world_invariant hw.1 h
  by_cases own : OwnStep t a
  · rcases slow_step h hw.2 (.inr own) with ⟨calls, _⟩ | reached
    · exact .inl ⟨invariant, calls⟩
    · exact .inr ⟨invariant, reached⟩
  · refine .inl ⟨invariant, ?_⟩
    rw [Calls, other_step h hw.2.2 own]
    exact hw.2

end

section
variable {Thread : Type} [DecidableEq Thread] {k : Kind Thread} {s : World k}

/-- Nobody stops inside `Resolve`; in particular every call of a factory ends. -/
def Fair (e : Execution worldNext s) : Prop :=
  ∀ t n, Resolving ((e.state n).lock.pc t) → ∃ m, n ≤ m ∧ OwnStep t (e.action m)

variable {e : Execution worldNext s}

theorem holder_publishes (fair : Fair e) (u : Thread) :
    e.LeadsTo (fun w => Invariant w.lock ∧ (w.lock.pc u).InGuard) fun w => w.lock.resolved.isSome := by
  refine leadsTo_of_rank (fun w => slowSteps (w.lock.pc u)) fun r => ?_
  refine leadsTo_of_turn (OwnStep u) ?_ ?_ (fun n hn => fair u n ?_)
  · rintro w a w' ⟨⟨hw, inside⟩, rank⟩ other h
    have same := other_step h (resolving_of_slow ((inGuard_iff _).mp inside).1) other
    exact .inl ⟨⟨world_invariant hw h, same.symm ▸ inside⟩, same.symm ▸ rank⟩
  · rintro w a w' ⟨⟨hw, inside⟩, rank⟩ own h
    obtain ⟨b, rfl, hb, _⟩ := own_step h own
    obtain ⟨less, inside | published⟩ := inGuard_step hw (step_cases hb) inside
    · exact .inr ⟨⟨world_invariant hw h, inside⟩, rank ▸ less⟩
    · exact .inl published
  · exact resolving_of_slow ((inGuard_iff _).mp hn.1.2).1

theorem waiting_publishes (fair : Fair e) (t : Thread) (op : k.primitive.Op) :
    e.LeadsTo (fun w => Invariant w.lock ∧ w.lock.pc t = .testAndSet op)
      fun w => w.lock.resolved.isSome := by
  have someone : e.LeadsTo (fun w => Invariant w.lock ∧ w.lock.pc t = .testAndSet op)
      fun w => ∃ u, Invariant w.lock ∧ (w.lock.pc u).InGuard := by
    refine leadsTo_of_turn (OwnStep t) ?_ ?_ (fun n hn => fair t n ?_)
    · rintro w a w' ⟨hw, hpc⟩ other h
      refine .inl ⟨world_invariant hw h, ?_⟩
      rw [other_step h (by rw [hpc]; exact Nat.succ_pos 6) other, hpc]
    · rintro w a w' ⟨hw, hpc⟩ own h
      obtain ⟨b, _, hb, waits⟩ := own_step h own
      rw [waits op (.inr hpc)] at hb
      have invariant := world_invariant hw h
      cases free : w.lock.resolutionGuard with
      | false =>
        refine ⟨t, invariant, ?_⟩
        rw [enter_step hpc free hb]
        trivial
      | true =>
        simp only [step, advance, hpc, free, if_true, Option.some.injEq] at hb
        obtain ⟨u, inside⟩ := hw.token.held.mp free
        exact ⟨u, invariant, hb ▸ inside⟩
    · rw [hn.2]
      exact Nat.succ_pos 6
  refine leadsTo_trans someone ?_
  rintro n ⟨u, hu⟩
  exact holder_publishes fair u n hu

theorem calls_publish (fair : Fair e) (t : Thread) (op : k.primitive.Op) :
    e.LeadsTo (fun w => Invariant w.lock ∧ Calls t op w) fun w => w.lock.resolved.isSome := by
  have slow : e.LeadsTo (fun w => Invariant w.lock ∧ w.lock.pc t = .loadResolved op)
      fun w => w.lock.resolved.isSome ∨ Invariant w.lock ∧ w.lock.pc t = .testAndSet op := by
    refine leadsTo_of_turn (OwnStep t) ?_ ?_ (fun n hn => fair t n ?_)
    · rintro w a w' ⟨hw, hpc⟩ other h
      refine .inl ⟨world_invariant hw h, ?_⟩
      rw [other_step h (by rw [hpc]; exact Nat.succ_pos 7) other, hpc]
    · rintro w a w' ⟨hw, hpc⟩ own h
      obtain ⟨b, _, hb, waits⟩ := own_step h own
      rw [waits op (.inl hpc)] at hb
      have loaded := load_step hpc hb
      have invariant := world_invariant hw h
      cases hr : w.lock.resolved with
      | none =>
        rw [hr] at loaded
        exact .inr ⟨invariant, loaded⟩
      | some p =>
        rw [hr] at loaded
        exact .inl (Option.isSome_iff_exists.mpr ⟨p, invariant.knows_at loaded⟩)
    · rw [hn.2]
      exact Nat.succ_pos 7
  rintro n ⟨hw, called, inside⟩
  cases hpc : (e.state n).lock.pc t with
  | idle | callPrimitive _ _ =>
    rw [hpc] at inside
    exact absurd inside (Nat.lt_irrefl 0)
  | loadResolved op' =>
    rw [hpc, pending, Option.some.injEq] at called
    subst called
    obtain ⟨m, hnm, published | waiting⟩ := slow n ⟨hw, hpc⟩
    · exact ⟨m, hnm, published⟩
    · obtain ⟨l, hml, published⟩ := waiting_publishes fair t _ m waiting
      exact ⟨l, hnm.trans hml, published⟩
  | testAndSet op' => exact waiting_publishes fair t op' n ⟨hw, hpc⟩
  | _ => exact holder_publishes fair t n ⟨hw, by rw [hpc]; trivial⟩

/-- The pointer is published; only the threads of `A` are still on the slow path. -/
structure Settled (A : Finset Thread) (p : Pointer) (w : World k) : Prop where
  invariant : Invariant w.lock
  published : w.lock.resolved = some p
  outside : ∀ u, u ∉ A → slowSteps (w.lock.pc u) = 0

def total (A : Finset Thread) (w : World k) : ℕ := ∑ u ∈ A, slowSteps (w.lock.pc u)

variable {A : Finset Thread} {p : Pointer} {w w' : World k} {a : WorldAction k} {t : Thread}
  {op : k.primitive.Op}

theorem slowSteps_world (hw : Settled A p w) (h : worldNext w a = some w') (u : Thread) :
    slowSteps (w'.lock.pc u) ≤ slowSteps (w.lock.pc u) := by
  cases a with
  | change c =>
    rw [← Option.some.inj h]
  | act b => exact slowSteps_step hw.invariant hw.published (act_step h) u

theorem resolved_world (hw : Settled A p w) (h : worldNext w a = some w') :
    w'.lock.resolved = some p := by
  cases a with
  | change c =>
    rw [← Option.some.inj h]
    exact hw.published
  | act b =>
    have kept := settled_step hw.invariant (step_cases (act_step h))
    exact (kept (Option.isSome_iff_exists.mpr ⟨p, hw.published⟩)).1.trans hw.published

theorem settled_keep (hw : Settled A p w) (h : worldNext w a = some w') : Settled A p w' where
  invariant := world_invariant hw.invariant h
  published := resolved_world hw h
  outside u hu := Nat.le_zero.mp ((slowSteps_world hw h u).trans_eq (hw.outside u hu))

/-- A step brings the threads on the slow path nearer to its end, or changes none of them. -/
theorem total_step (hw : Settled A p w) (h : worldNext w a = some w') :
    total A w' < total A w ∨ ∀ u, slowSteps (w'.lock.pc u) = slowSteps (w.lock.pc u) := by
  have le := slowSteps_world hw h
  rcases (Finset.sum_le_sum fun u (_ : u ∈ A) => le u).lt_or_eq with less | same
  · exact .inl less
  · refine .inr fun u => ?_
    by_cases hu : u ∈ A
    · exact (Finset.sum_eq_sum_iff_of_le fun u _ => le u).mp same u hu
    · rw [(settled_keep hw h).outside u hu, hw.outside u hu]

def Waits (A : Finset Thread) (p : Pointer) (t : Thread) (op : k.primitive.Op) (w : World k) : Prop :=
  Settled A p w ∧ Calls t op w ∧ 0 < slowSteps (w.lock.pc t)

theorem waits_step (hw : Waits A p t op w) (h : worldNext w a = some w') :
    ((Reached t op w' ∨ Waits A p t op w' ∧ total A w' < total A w) ∨
      Waits A p t op w' ∧ ∀ u, slowSteps (w'.lock.pc u) = slowSteps (w.lock.pc u)) := by
  obtain ⟨settled, calls, slow⟩ := hw
  have kept := settled_keep settled h
  rcases slow_step h calls (.inl slow) with still | reached
  · exact (total_step settled h).imp (fun less => .inr ⟨⟨kept, still⟩, less⟩)
      fun same => ⟨⟨kept, still⟩, same⟩
  · exact .inl (.inl ⟨kept.invariant, reached⟩)

omit [DecidableEq Thread] in
theorem total_congr (same : ∀ u, slowSteps (w'.lock.pc u) = slowSteps (w.lock.pc u)) :
    total A w' = total A w :=
  Finset.sum_congr rfl fun u _ => same u

/-- What the program points alone decide lasts until somebody gets on, at the latest when the
thread takes its step. -/
theorem waits_until (fair : Fair e) (r : ℕ) {u : Thread} {I : World k → Prop}
    (congr : ∀ w w' : World k,
      (∀ v, slowSteps (w'.lock.pc v) = slowSteps (w.lock.pc v)) → I w → I w')
    (inside : ∀ w, Waits A p t op w → I w → Resolving (w.lock.pc u))
    (moves : ∀ w a w', Waits A p t op w → I w → OwnStep u a → worldNext w a = some w' →
      ∃ v, slowSteps (w'.lock.pc v) ≠ slowSteps (w.lock.pc v)) :
    e.LeadsTo (fun w => (Waits A p t op w ∧ total A w = r) ∧ I w)
      fun w => Reached t op w ∨ Waits A p t op w ∧ total A w < r := by
  refine leadsTo_of_turn (OwnStep u) ?_ ?_ (fun n hn => fair u n (inside _ hn.1.1 hn.2))
  · rintro w a w' ⟨⟨hw, rank⟩, hI⟩ _ h
    rcases waits_step hw h with progress | ⟨waits, same⟩
    · exact .inr (rank ▸ progress)
    · exact .inl ⟨⟨waits, (total_congr same).trans rank⟩, congr w w' same hI⟩
  · rintro w a w' ⟨⟨hw, rank⟩, hI⟩ own h
    rcases waits_step hw h with progress | ⟨_, same⟩
    · exact rank ▸ progress
    · obtain ⟨v, changed⟩ := moves w a w' hw hI own h
      exact absurd (same v) changed

omit [DecidableEq Thread] in
theorem inGuard_congr (same : ∀ v, slowSteps (w'.lock.pc v) = slowSteps (w.lock.pc v))
    (u : Thread) : (w'.lock.pc u).InGuard ↔ (w.lock.pc u).InGuard := by
  rw [inGuard_iff, inGuard_iff, same u]

theorem waits_enters (hw : Waits A p t op w) (outside : ∀ u, ¬ (w.lock.pc u).InGuard)
    (own : OwnStep t a) (h : worldNext w a = some w') :
    slowSteps (w'.lock.pc t) ≠ slowSteps (w.lock.pc t) := by
  obtain ⟨settled, _, slow⟩ := hw
  have bound : ¬ slowSteps (w.lock.pc t) < 7 :=
    fun less => outside t ((inGuard_iff _).mpr ⟨slow, less⟩)
  cases hpc : w.lock.pc t with
  | testAndSet op' =>
    have free : w.lock.resolutionGuard = false := by
      refine Bool.eq_false_iff.mpr fun busy => ?_
      obtain ⟨u, inside⟩ := settled.invariant.token.held.mp busy
      exact outside u inside
    obtain ⟨b, _, hb, waits⟩ := own_step h own
    rw [waits op' (.inr hpc)] at hb
    rw [enter_step hpc free hb]
    exact (Nat.lt_succ_self 6).ne
  | _ =>
    rw [hpc] at bound
    exact absurd (by simp [slowSteps, stepsLeft]) bound

/-- While a thread waits, one that is inside the guard gets on, or one gets inside. -/
theorem waits_drop (fair : Fair e) (r : ℕ) :
    e.LeadsTo (fun w => Waits A p t op w ∧ total A w = r)
      fun w => Reached t op w ∨ Waits A p t op w ∧ total A w < r := by
  intro n hn
  by_cases inside : ∃ u, ((e.state n).lock.pc u).InGuard
  · obtain ⟨u, hu⟩ := inside
    refine waits_until fair r (u := u) (I := fun w => (w.lock.pc u).InGuard)
      (fun w w' same => (inGuard_congr same u).mpr) ?_ ?_ n ⟨hn, hu⟩
    · exact fun w _ inside => resolving_of_slow ((inGuard_iff _).mp inside).1
    · intro w a w' hw inside own h
      obtain ⟨b, rfl, hb, _⟩ := own_step h own
      exact ⟨_, (inGuard_step hw.1.invariant (step_cases hb) inside).1.ne⟩
  · refine waits_until fair r (u := t) (I := fun w => ∀ u, ¬ (w.lock.pc u).InGuard)
      (fun w w' same outside u hu => outside u ((inGuard_congr same u).mp hu)) ?_ ?_ n
      ⟨hn, fun u hu => inside ⟨u, hu⟩⟩
    · exact fun w hw _ => hw.2.1.2
    · exact fun w a w' hw outside own h => ⟨t, waits_enters hw outside own h⟩

theorem waits_reach (fair : Fair e) : e.LeadsTo (Waits A p t op) (Reached t op) :=
  leadsTo_of_rank (total A) (waits_drop fair)

theorem settled_reach (fair : Fair e) :
    e.LeadsTo (fun w => Settled A p w ∧ Calls t op w) (Reached t op) := by
  have first : e.LeadsTo (fun w => Settled A p w ∧ Calls t op w)
      fun w => Reached t op w ∨ Waits A p t op w := by
    refine leadsTo_of_turn (OwnStep t) ?_ ?_ (fun n hn => fair t n hn.2.2)
    · rintro w a w' ⟨hw, calls⟩ other h
      refine .inl ⟨settled_keep hw h, ?_⟩
      rw [Calls, other_step h calls.2 other]
      exact calls
    · rintro w a w' ⟨hw, calls⟩ own h
      have kept := settled_keep hw h
      rcases slow_step h calls (.inr own) with still | reached
      · exact .inr ⟨kept, still⟩
      · exact .inl ⟨kept.invariant, reached⟩
  refine leadsTo_trans first ?_
  rintro n (reached | waits)
  · exact ⟨n, Nat.le_refl n, reached⟩
  · exact waits_reach fair n waits

theorem active_finite (k : Kind Thread) (storage : ProviderStorage)
    (e : Execution worldNext (initialWorld k storage)) (n : ℕ) :
    ∃ A : Finset Thread, ∀ u, u ∉ A → (e.state n).lock.pc u = .idle := by
  refine invariant_of_execution
    (P := fun w : World k => ∃ A : Finset Thread, ∀ u, u ∉ A → w.lock.pc u = .idle) ?_ ⟨∅, fun _ _ => rfl⟩ n
  rintro w a w' ⟨A, outside⟩ h
  cases a with
  | change c =>
    rw [← Option.some.inj h]
    exact ⟨A, outside⟩
  | act b =>
    refine ⟨insert (actor b) A, fun u hu => ?_⟩
    obtain ⟨other, hA⟩ := not_or.mp fun h => hu (Finset.mem_insert.mpr h)
    rw [step_pc_other (step_cases (act_step h)) other]
    exact outside u hA

theorem calls_reach {storage : ProviderStorage} {e : Execution worldNext (initialWorld k storage)}
    (fair : Fair e) : e.LeadsTo (Calls t op) (Reached t op) := by
  intro n start
  have invariant : ∀ n, Invariant (e.state n).lock :=
    invariant_of_execution (P := fun w : World k => Invariant w.lock) (fun _ _ _ => world_invariant)
      (LazyLock.initial_invariant k)
  have published : e.LeadsTo
      (fun w => (Invariant w.lock ∧ Calls t op w) ∧ Invariant w.lock ∧ Calls t op w)
      fun w => (w.lock.resolved.isSome ∧ Invariant w.lock ∧ Calls t op w) ∨ Reached t op w :=
    leadsTo_unless (fun _ _ _ => calls_step) (calls_publish fair t op)
  obtain ⟨m, hnm, ⟨hr, hm, calls⟩ | reached⟩ := published n ⟨⟨invariant n, start⟩, invariant n, start⟩
  · obtain ⟨p, hp⟩ := Option.isSome_iff_exists.mp hr
    obtain ⟨A, outside⟩ := active_finite k storage e m
    have settled : Settled A p (e.state m) := ⟨hm, hp, fun u hu => by rw [outside u hu]; rfl⟩
    obtain ⟨l, hml, reached⟩ := settled_reach fair m ⟨settled, calls⟩
    exact ⟨l, hnm.trans hml, reached⟩
  · exact ⟨m, hnm, reached⟩

/-- In every fair execution, each call of a lock gets through `Resolve` to the primitive that is
published, however many threads compete for it and whatever becomes of the providers. -/
theorem lazy_lock_resolve_returns (k : Kind Thread) (storage : ProviderStorage)
    (e : Execution worldNext (initialWorld k storage)) (fair : Fair e) {t : Thread} {n : ℕ}
    {op : k.primitive.Op} (called : pending ((e.state n).lock.pc t) = some op)
    (inside : Resolving ((e.state n).lock.pc t)) :
    ∃ m p, n ≤ m ∧ (e.state m).lock.pc t = .callPrimitive op p ∧
      (e.state m).lock.resolved = some p := by
  obtain ⟨m, hnm, invariant, p, hpc⟩ := calls_reach fair n ⟨called, inside⟩
  exact ⟨m, p, hnm, hpc, invariant.knows_at hpc⟩

def contention : List (WorldAction (mutex (Fin 2))) :=
  [.act (.invoke 0 (LockOp.lock ())), .act (.invoke 1 (LockOp.tryLock ())), .act (.advance 0),
    .act (.advance 1), .act (.advance 0), .act (.advance 1), .act (.advance 0), .act (.advance 0),
    .act (.advance 0), .act (.advance 0), .act (.advance 1), .act (.advance 0), .act (.advance 1),
    .act (.advance 1), .act (.advance 1)]

theorem contention_completes :
    (run worldNext (initialWorld (mutex (Fin 2)) initialStorage) contention).isSome := rfl

def contended : Execution worldNext (initialWorld (mutex (Fin 2)) initialStorage) :=
  .stuttering (a := .change .resetProvider) (Option.some_get contention_completes).symm rfl

theorem contended_fair : Fair contended := by
  have early : ∀ n < 15, ∀ t, Resolving ((contended.state n).lock.pc t) →
      n ≤ if t = 0 then 11 else 14 := by decide
  have late : ∀ t, ¬ Resolving ((Option.get _ contention_completes).lock.pc t) := by decide
  intro t n inside
  rcases Nat.lt_or_ge n 15 with less | past
  · have bound := early n less t inside
    by_cases ht : t = 0
    · exact ⟨11, by rwa [if_pos ht] at bound, ht.symm⟩
    · exact ⟨14, by rwa [if_neg ht] at bound, (Fin.eq_one_of_ne_zero t ht).symm⟩
  · have ended : contended.state n = Option.get _ contention_completes := stuttering_past _ _ past
    exact absurd (ended ▸ inside) (late t)

theorem lazy_lock_resolve_returns_contended :
    (contended.state 6).lock.pc 1 = .testAndSet (LockOp.tryLock ()) ∧
      ∃ m p, 6 ≤ m ∧ (contended.state m).lock.pc 1 = .callPrimitive (LockOp.tryLock ()) p ∧
        (contended.state m).lock.resolved = some p :=
  ⟨rfl, lazy_lock_resolve_returns _ _ contended contended_fair (t := 1) rfl (by decide)⟩

end

section
variable {Thread : Type} [DecidableEq Thread] {k : Kind Thread}

def spins (s : Lock k) (t : Thread) : Bool :=
  match s.pc t with
  | .testAndSet _ => s.resolutionGuard
  | _ => false

/-- A step inside `Resolve` that is no vain `test_and_set`. -/
def works (t : Thread) (s : Lock k) : LazyLock.Action k → Bool
  | .advance u => decide (u = t) && !spins s u
  | .create u _ => decide (u = t)
  | .invoke _ _ | .perform _ _ => false

def invokes (t : Thread) (_ : Lock k) : LazyLock.Action k → Bool
  | .invoke u _ => decide (u = t)
  | .advance _ | .create _ _ | .perform _ _ => false

def performs (t : Thread) (_ : Lock k) : LazyLock.Action k → Bool
  | .perform u _ => decide (u = t)
  | .invoke _ _ | .advance _ | .create _ _ => false

def idle {Op : Type} : Pc Op → Bool
  | .idle => true
  | _ => false

variable {storage : ProviderStorage} {s s' : Lock k} {a : LazyLock.Action k}

theorem works_other {t : Thread} (ht : t ≠ actor a) : works t s a = false := by
  cases a <;> simp_all [works, actor, eq_comm]

theorem invokes_other {t : Thread} (ht : t ≠ actor a) : invokes t s a = false := by
  cases a <;> simp_all [invokes, actor, eq_comm]

theorem performs_other {t : Thread} (ht : t ≠ actor a) : performs t s a = false := by
  cases a <;> simp_all [performs, actor, eq_comm]

theorem works_step (h : step storage s a = some s') (t : Thread) :
    (works t s a).toNat + stepsLeft (s'.pc t) ≤ stepsLeft (s.pc t) + 8 * (invokes t s a).toNat := by
  have taken := step_cases h
  by_cases ht : t = actor a
  · subst ht
    have one := Bool.toNat_le (works (actor a) s a)
    cases taken with
    | invoke hpc | performed hpc _ =>
      simp [works, invokes, actor, hpc, pc_after, stepsLeft]
    | spin hpc =>
      cases guarded : s.resolutionGuard with
      | true => simp [works, spins, actor, hpc, guarded]
      | false =>
        have entered := enter_step hpc guarded h
        rw [hpc] at entered
        cases entered
    | created outcome hpc hcreate =>
      rw [(create_goto hpc hcreate).1, actor, hpc, pc_after]
      simp only [actor, stepsLeft] at *
      omega
    | fastPath hpc _ | slowPath hpc | enter hpc _ | alreadyResolved hpc _ | unresolved hpc _
    | provided hpc _ | unprovided hpc _ | select hpc | publish hpc | leave hpc =>
      simp only [actor, hpc, Lock.goto, Function.update_self, stepsLeft] at one ⊢
      omega
  · rw [step_pc_other taken ht, works_other ht, invokes_other ht]
    exact Nat.le_of_eq (Nat.add_comm _ _)

theorem invokes_step (h : step storage s a = some s') (t : Thread) :
    (invokes t s a).toNat + (idle (s'.pc t)).toNat ≤
      (idle (s.pc t)).toNat + 1 * (performs t s a).toNat := by
  have taken := step_cases h
  by_cases ht : t = actor a
  · subst ht
    cases taken with
    | invoke hpc | performed hpc _ =>
      simp [invokes, performs, actor, hpc, pc_after, idle]
    | spin hpc =>
      simp [invokes]
    | created outcome hpc hcreate =>
      rw [(create_goto hpc hcreate).1, actor, pc_after]
      exact Nat.zero_le _
    | fastPath hpc _ | slowPath hpc | enter hpc _ | alreadyResolved hpc _ | unresolved hpc _
    | provided hpc _ | unprovided hpc _ | select hpc | publish hpc | leave hpc =>
      simp [actor, Lock.goto, invokes, idle]
  · rw [step_pc_other taken ht, invokes_other ht, performs_other ht]
    exact Nat.le_of_eq (Nat.add_comm _ _)

theorem stepsLeft_le {Op : Type} (c : Pc Op) : stepsLeft c + 8 * (idle c).toNat ≤ 8 := by
  cases c <;> simp [stepsLeft, idle]

theorem lock_budget {C D : Lock k → LazyLock.Action k → Bool} {f : Lock k → ℕ} {c : ℕ}
    (pays : ∀ storage s a s', step storage s a = some s' →
      (C s a).toNat + f s' ≤ f s + c * (D s a).toNat)
    {v w : World k} {as : List (WorldAction k)} (h : run worldNext v as = some w) :
    occurrences worldNext (onLock C) v as + f w.lock ≤
      f v.lock + c * occurrences worldNext (onLock D) v as := by
  obtain ⟨bs, hrun, count⟩ := lock_run h
  have each : ∀ (s : Lock k) a s', next s a = some s' →
      (amongProviders C s a).toNat + f s' ≤ f s + c * (amongProviders D s a).toNat :=
    fun s a s' h => pays a.1 s a.2 s' h
  have budget := budget_of_run each hrun
  rwa [count, count] at budget

/-- However the threads are scheduled, `Resolve` takes a thread at most eight steps for a call,
from whatever state on, apart from those in which it waits for another thread to leave the
guard. -/
theorem lazy_lock_resolve_bounded (k : Kind Thread) (storage : ProviderStorage)
    {as bs : List (WorldAction k)} {v w : World k}
    (h : run worldNext (initialWorld k storage) as = some v) (h' : run worldNext v bs = some w)
    (t : Thread) :
    occurrences worldNext (onLock (works t)) v bs + stepsLeft (w.lock.pc t) ≤
      stepsLeft (v.lock.pc t) + 8 * occurrences worldNext (onLock (invokes t)) v bs ∧
    (occurrences worldNext (onLock (performs t)) v bs = 0 →
      occurrences worldNext (onLock (works t)) v bs + stepsLeft (w.lock.pc t) ≤ 8) ∧
    (spins w.lock t = true → ∃ u, u ≠ t ∧ (w.lock.pc u).InGuard) := by
  obtain ⟨_, hrun, _⟩ := lock_run (run_trans worldNext h h')
  have start : Invariant (initialWorld k storage).lock := LazyLock.initial_invariant k
  have hs : Invariant w.lock := run_invariant start hrun
  have budget := lock_budget (f := fun s => stepsLeft (s.pc t))
    (fun _ _ _ _ h => works_step h t) h'
  have begun := lock_budget (f := fun s => (idle (s.pc t)).toNat)
    (fun _ _ _ _ h => invokes_step h t) h'
  refine ⟨budget, fun unperformed => ?_, fun spinning => ?_⟩
  · have full := stepsLeft_le (v.lock.pc t)
    rw [unperformed] at begun
    omega
  · unfold spins at spinning
    split at spinning
    next op hpc =>
      obtain ⟨u, hu⟩ := hs.token.held.mp spinning
      refine ⟨u, fun same => ?_, hu⟩
      rw [same, hpc] at hu
      exact hu
    next => cases spinning

theorem waiting_completes :
    (run worldNext (initialWorld (mutex (Fin 2)) initialStorage) (contention.take 3)).isSome := rfl

theorem waited_completes :
    (run worldNext (Option.get _ waiting_completes) (contention.drop 3)).isSome := rfl

theorem lazy_lock_resolve_bounded_contention :
    ∃ v w, run worldNext (initialWorld (mutex (Fin 2)) initialStorage) (contention.take 3) = some v ∧
      run worldNext v (contention.drop 3) = some w ∧
      v.lock.pc 1 = .loadResolved (LockOp.tryLock ()) ∧
      occurrences worldNext (onLock (works 1)) v (contention.drop 3) + stepsLeft (w.lock.pc 1) ≤ 8 := by
  have h := (Option.some_get waiting_completes).symm
  have h' := (Option.some_get waited_completes).symm
  exact ⟨_, _, h, h', rfl, (lazy_lock_resolve_bounded (mutex (Fin 2)) initialStorage h h' 1).2.1 rfl⟩

end

end ESPressioSystem.LazyLockProgress
