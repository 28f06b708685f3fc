import ESPressioSystem.SpinFlag
import ESPressioSystem.WeakLazyLock

set_option autoImplicit false

/-!
# The guard passes on all that is done under it

With the memory orders of the source, each step is one that the protocol could take if it were
sequentially consistent, in the state that the last values of the variables make up. Only the
first load of `_resolved` may return an old value, and then the thread goes the longer way.
-/
namespace ESPressioSystem.WeakLazyLock
open Transition SharedObject SynchronizationProvider LazyLock ReleaseAcquire SpinFlag Locks

section
variable {Thread : Type} [DecidableEq Thread] {k : Kind Thread}

inductive WeakStep (sync : Handover k.primitive) (storage : Atomic ProviderStorage) (event : ℕ)
    (view : View) (s : WeakLock k) : Action k → View → WeakLock k → Prop where
  | invoke {t : Thread} {op : k.primitive.Op} (hpc : s.pc t = .idle) :
      WeakStep sync storage event view s (.invoke t op) ∅ (s.goto t (.loadResolved op))
  | loaded {t : Thread} {op : k.primitive.Op} {i : ℕ} {m : Message (Option Pointer)}
      (hpc : s.pc t = .loadResolved op) (hm : load s.resolved view i = some m) :
      WeakStep sync storage event view s (.advance t) m.known (s.goto t (afterLoad op m.value))
  | tested {t : Thread} {op : k.primitive.Op} {i : ℕ} {m : Message Bool} {flag : Atomic Bool}
      (hpc : s.pc t = .testAndSet op)
      (hx : exchange s.resolutionGuard view i event true ∅ = some (m, flag)) :
      WeakStep sync storage event view s (.advance t) m.known
        { s.goto t (afterTest op m.value) with resolutionGuard := flag }
  | reloaded {t : Thread} {op : k.primitive.Op} {i : ℕ} {m : Message (Option Pointer)}
      (hpc : s.pc t = .reloadResolved op) (hm : load s.resolved view i = some m) :
      WeakStep sync storage event view s (.advance t) {m.event} (s.goto t (afterReload op m.value))
  | asked {t : Thread} {op : k.primitive.Op} {i : ℕ} {m : Message ProviderStorage}
      (hpc : s.pc t = .loadProvider op) (hm : load storage view i = some m) :
      WeakStep sync storage event view s (.advance t) m.known
        (s.goto t (afterProvider op (provider m.value)))
  | created {t : Thread} {op : k.primitive.Op} {p : ProviderId} (outcome : Outcome)
      {learnt : View} {s' : WeakLock k} (hpc : s.pc t = .callFactory op p)
      (h : create event s t outcome = some (learnt, s')) :
      WeakStep sync storage event view s (.create t outcome) learnt s'
  | select {t : Thread} {op : k.primitive.Op} (hpc : s.pc t = .selectPrimitive op) :
      WeakStep sync storage event view s (.advance t) ∅
        { s.goto t (.storeResolved op (selected s.owned)) with
          ownedAccesses := s.ownedAccesses.read event }
  | publish {t : Thread} {op : k.primitive.Op} {resolved : Pointer} {i : ℕ}
      {x : Atomic (Option Pointer)} (hpc : s.pc t = .storeResolved op resolved)
      (hx : store s.resolved view i ⟨event, some resolved, view, false⟩ = some x) :
      WeakStep sync storage event view s (.advance t) ∅
        { s.goto t (.clearGuard op resolved) with resolved := x }
  | leave {t : Thread} {op : k.primitive.Op} {resolved : Pointer} {i : ℕ} {x : Atomic Bool}
      (hpc : s.pc t = .clearGuard op resolved)
      (hx : store s.resolutionGuard view i ⟨event, false, view, false⟩ = some x) :
      WeakStep sync storage event view s (.advance t) ∅
        { s.goto t (.callPrimitive op resolved) with resolutionGuard := x }
  | performed {t : Thread} {op : k.primitive.Op} {resolved : Pointer} {ret : k.primitive.Ret}
      {after : k.primitive.State} (hpc : s.pc t = .callPrimitive op resolved)
      (h : k.primitive.perform (s.objects resolved) t op ret = some after) :
      WeakStep sync storage event view s (.perform t ret)
        (if sync.acquires op ret then s.released resolved else ∅)
        { s.goto t .idle with
          objects := Function.update s.objects resolved after
          released := if sync.releases op ret then
            Function.update s.released resolved (s.released resolved ∪ insert event view)
            else s.released
          history := s.history ++ [⟨t, op, ret⟩] }

variable {sync : Handover k.primitive} {storage : Atomic ProviderStorage} {event i : ℕ}
  {view : View} {s s' : WeakLock k} {t : Thread} {a : Action k} {learnt : View} {outcome : Outcome}

theorem advance_cases (h : advance storage event view s t i = some (learnt, s')) :
    WeakStep sync storage event view s (.advance t) learnt s' := by
  unfold advance at h
  cases hpc : s.pc t with
  | idle | callFactory _ _ | callPrimitive _ _ => simp [hpc] at h
  | loadResolved op =>
    simp only [hpc] at h
    obtain ⟨m, hm, hpair⟩ := Option.map_eq_some_iff.mp h
    obtain ⟨rfl, rfl⟩ := Prod.mk.inj hpair
    exact .loaded hpc hm
  | testAndSet op =>
    simp only [hpc] at h
    obtain ⟨⟨m, flag⟩, hx, hpair⟩ := Option.map_eq_some_iff.mp h
    obtain ⟨rfl, rfl⟩ := Prod.mk.inj hpair
    exact .tested hpc hx
  | reloadResolved op =>
    simp only [hpc] at h
    obtain ⟨m, hm, hpair⟩ := Option.map_eq_some_iff.mp h
    obtain ⟨rfl, rfl⟩ := Prod.mk.inj hpair
    exact .reloaded hpc hm
  | loadProvider op =>
    simp only [hpc] at h
    obtain ⟨m, hm, hpair⟩ := Option.map_eq_some_iff.mp h
    obtain ⟨rfl, rfl⟩ := Prod.mk.inj hpair
    exact .asked hpc hm
  | selectPrimitive op =>
    simp only [hpc, Option.some.injEq] at h
    obtain ⟨rfl, rfl⟩ := Prod.mk.inj h
    exact .select hpc
  | storeResolved op resolved =>
    simp only [hpc] at h
    obtain ⟨x, hx, hpair⟩ := Option.map_eq_some_iff.mp h
    obtain ⟨rfl, rfl⟩ := Prod.mk.inj hpair
    exact .publish hpc hx
  | clearGuard op resolved =>
    simp only [hpc] at h
    obtain ⟨x, hx, hpair⟩ := Option.map_eq_some_iff.mp h
    obtain ⟨rfl, rfl⟩ := Prod.mk.inj hpair
    exact .leave hpc hx

theorem step_cases (h : step sync storage event view s a i = some (learnt, s')) :
    WeakStep sync storage event view s a learnt s' := by
  cases a with
  | invoke t op =>
    simp only [step, invoke] at h
    split at h
    · rename_i hpc
      obtain ⟨rfl, rfl⟩ := Prod.mk.inj (Option.some.inj h)
      exact .invoke hpc
    · cases h
  | advance t => exact advance_cases h
  | create t outcome =>
    have hc := h
    simp only [step, create] at hc
    split at hc
    · rename_i hpc
      exact .created outcome hpc h
    · cases hc
  | perform t ret =>
    simp only [step, perform] at h
    split at h
    · rename_i hpc
      obtain ⟨after, hafter, hpair⟩ := Option.map_eq_some_iff.mp h
      obtain ⟨rfl, rfl⟩ := Prod.mk.inj hpair
      exact .performed hpc hafter
    · cases h

/-- The view contains all that has been done under the guard. -/
structure Guarded (owned : Plain) (resolved : Atomic (Option Pointer)) (made : Pointer → Option ℕ)
    (view : View) : Prop where
  owned : owned.WriteOrdered view
  resolved : ∀ m ∈ resolved, m.event ∈ view
  made : ∀ p, made p ≠ none → Known (made p) view

abbrev Informed (s : WeakLock k) : View → Prop := Guarded s.ownedAccesses s.resolved s.made

structure Sound (view : Thread → View) (s : WeakLock k) : Prop where
  base : LazyLock.Invariant s.newest
  once : Once s.resolved
  guard : Flag s.resolutionGuard (Informed s)
  owner : ∀ t, (s.pc t).InGuard → Owns s.resolutionGuard (Informed s) (view t)
  made : ∀ p, p = .fallback ∨ p = selected s.owned → s.made p ≠ none
  published : ∀ m ∈ s.resolved, ∀ p ∈ m.value, Known (s.made p) m.known
  callers : ∀ t op p, s.pc t = .callPrimitive op p → Known (s.made p) (view t)

theorem Guarded.mono {owned : Plain} {resolved : Atomic (Option Pointer)}
    {made : Pointer → Option ℕ} {view view' : View} (h : Guarded owned resolved made view)
    (grow : view ⊆ view') : Guarded owned resolved made view' where
  owned := ⟨h.owned.1.trans grow, h.owned.2.trans grow⟩
  resolved m hm := grow (h.resolved m hm)
  made p hp := (h.made p hp).mono grow

variable {view view' : Thread → View}

omit [DecidableEq Thread] in
theorem Sound.mono (hs : Sound view s) (grow : ∀ t, view t ⊆ view' t) : Sound view' s where
  base := hs.base
  once := hs.once
  guard := hs.guard
  owner t ht := (hs.owner t ht).mono (grow t) ((hs.owner t ht).knows.mono (grow t))
  made := hs.made
  published := hs.published
  callers t op p hpc := (hs.callers t op p hpc).mono (grow t)

omit [DecidableEq Thread] in
theorem sound_initial (k : Kind Thread) (view : Thread → View) : Sound view (initial k) where
  base := LazyLock.initial_invariant k
  once m hm := absurd hm List.not_mem_nil
  guard := flag_initialised 0 {
    owned := ⟨Finset.empty_subset _, Finset.empty_subset _⟩
    resolved := fun m hm => by
      rw [List.mem_singleton.mp hm]
      exact Finset.mem_singleton_self 0
    made := fun p hp => by
      cases p with
      | fallback => exact ⟨0, rfl, Finset.mem_singleton_self 0⟩
      | created n => exact absurd rfl hp }
  owner t ht := absurd ht id
  made p hp := by
    rcases hp with rfl | rfl <;> exact Option.some_ne_none 0
  published m hm p hp := by
    rw [List.mem_singleton.mp hm] at hp
    cases hp
  callers t op p hpc := by cases hpc

omit [DecidableEq Thread] in
theorem Sound.busy (hs : Sound view s) (ht : (s.pc t).InGuard) :
    ReleaseAcquire.newest s.resolutionGuard false = true :=
  hs.base.token.held.mpr ⟨t, ht⟩

omit [DecidableEq Thread] in
theorem Sound.knows_at (hs : Sound view s) {c : Pc k.primitive.Op} (hpc : s.pc t = c) :
    Knows (ReleaseAcquire.newest s.resolved none) s.owned s.factoryCalls c :=
  hs.base.knows_at hpc

omit [DecidableEq Thread] in
theorem Sound.made_published (hs : Sound view s) {p : Pointer}
    (h : ReleaseAcquire.newest s.resolved none = some p) : s.made p ≠ none :=
  hs.made p (.inr (hs.base.published p h))

theorem callers_update {made : Pointer → Option ℕ} {pc : Thread → Pc k.primitive.Op}
    {c : Pc k.primitive.Op}
    (others : ∀ u, u ≠ t → ∀ op p, pc u = .callPrimitive op p → Known (made p) (view u))
    (caller : ∀ op p, c = .callPrimitive op p → Known (made p) (view t)) :
    ∀ u op p, Function.update pc t c u = .callPrimitive op p → Known (made p) (view u) := by
  intro u op p hpc
  by_cases hu : u = t
  · subst hu
    rw [Function.update_self] at hpc
    exact caller op p hpc
  · rw [Function.update_of_ne hu] at hpc
    exact others u hu op p hpc

theorem owner_update {x : Atomic Bool} {P : View → Prop} {pc : Thread → Pc k.primitive.Op}
    {c : Pc k.primitive.Op} (others : ∀ u, u ≠ t → (pc u).InGuard → Owns x P (view u))
    (inside : c.InGuard → Owns x P (view t)) :
    ∀ u, (Function.update pc t c u).InGuard → Owns x P (view u) := by
  intro u hu
  by_cases hut : u = t
  · subst hut
    rw [Function.update_self] at hu
    exact inside hu
  · rw [Function.update_of_ne hut] at hu
    exact others u hut hu

/-- A thread moves on, and nothing else happens. -/
theorem Sound.goto (hs : Sound view s) {c : Pc k.primitive.Op}
    (base : LazyLock.Invariant (s.goto t c).newest) (inside : c.InGuard → (s.pc t).InGuard)
    (caller : ∀ op p, c = .callPrimitive op p → Known (s.made p) (view t)) :
    Sound view (s.goto t c) where
  base := base
  once := hs.once
  guard := hs.guard
  owner := owner_update (fun u _ => hs.owner u) fun hc => hs.owner t (inside hc)
  made := hs.made
  published := hs.published
  callers := callers_update (fun u _ => hs.callers u) caller

/-- A step that the sequentially consistent protocol can take, too. -/
def Sequential (s : WeakLock k) (a : Action k) (s' : WeakLock k) : Prop :=
  ∃ storage, LazyLock.Step storage s.newest a s'.newest

theorem Sequential.base (hs : Sound view s) (h : Sequential s a s') :
    LazyLock.Invariant s'.newest := by
  obtain ⟨storage, hstep⟩ := h
  exact step_invariant hs.base hstep

theorem loaded_sequential (hs : Sound view s) {op : k.primitive.Op} {m : Message (Option Pointer)}
    (hpc : s.pc t = .loadResolved op) (hm : m ∈ s.resolved) :
    Sequential s (.advance t) (s.goto t (afterLoad op m.value)) := by
  cases value : m.value with
  | none => exact ⟨none, .slowPath hpc⟩
  | some p => exact ⟨none, .fastPath hpc (hs.once.newest hm value)⟩

theorem loaded_sound (hs : Sound view s) {op : k.primitive.Op} {m : Message (Option Pointer)}
    (hpc : s.pc t = .loadResolved op) (hm : m ∈ s.resolved) (learns : m.known ⊆ view t) :
    Sound view (s.goto t (afterLoad op m.value)) := by
  refine hs.goto ((loaded_sequential hs hpc hm).base hs) ?_ fun op' p hp => ?_
  · cases m.value <;> exact False.elim
  · cases value : m.value with
    | none =>
      rw [value] at hp
      cases hp
    | some q =>
      rw [value] at hp
      cases hp
      exact (hs.published m hm _ value).mono learns

theorem tested_step (hs : Sound view s) {op : k.primitive.Op} {m : Message Bool}
    {flag : Atomic Bool} {before : View} (hpc : s.pc t = .testAndSet op)
    (hx : exchange s.resolutionGuard before i event true ∅ = some (m, flag))
    (learns : m.known ⊆ view t) (now : event ∈ view t) :
    Sequential s (.advance t) { s.goto t (afterTest op m.value) with resolutionGuard := flag } ∧
      Sound view { s.goto t (afterTest op m.value) with resolutionGuard := flag } := by
  cases value : m.value with
  | true =>
    obtain ⟨same, guard, owner⟩ := hs.guard.spin hx value
    have still : s.goto t (.testAndSet op) = s := by
      rw [WeakLock.goto, ← hpc, Function.update_eq_self]
    have vain : ({ s with resolutionGuard := flag } : WeakLock k).newest = s.newest := by
      simp only [WeakLock.newest, same]
    have sequential : Sequential s (.advance t) { s with resolutionGuard := flag } :=
      ⟨none, vain ▸ .spin hpc⟩
    simp only [afterTest, still]
    refine ⟨sequential, sequential.base hs, hs.once, guard, fun u hu => owner _ _ (hs.owner u hu),
      hs.made, hs.published, hs.callers⟩
  | false =>
    obtain ⟨free, taken, knows, guard, owner⟩ := hs.guard.enter hx value (Q := Informed s)
    have sequential : Sequential s (.advance t)
        { s.goto t (.reloadResolved op) with resolutionGuard := flag } := by
      refine ⟨none, ?_⟩
      have entered : LazyLock.Step none s.newest (.advance t)
          { s.newest.goto t (.reloadResolved op) with resolutionGuard := true } := .enter hpc free
      rwa [← taken] at entered
    refine ⟨sequential, sequential.base hs, hs.once, guard, ?_, hs.made, hs.published, ?_⟩
    · refine owner_update (fun u _ hu => ?_) fun _ => owner _ now (knows.mono learns)
      cases free.symm.trans (hs.busy hu)
    · exact callers_update (fun u _ => hs.callers u) fun op p hp => by cases hp

theorem reloaded_step (hs : Sound view s) {op : k.primitive.Op} {m : Message (Option Pointer)}
    {before : View} (hpc : s.pc t = .reloadResolved op) (informed : ∀ n ∈ s.resolved, n.event ∈ before)
    (hm : load s.resolved before i = some m) :
    Sequential s (.advance t) (s.goto t (afterReload op m.value)) ∧
      Sound view (s.goto t (afterReload op m.value)) := by
  obtain ⟨_, last⟩ := load_newest hm informed none
  have sequential : Sequential s (.advance t) (s.goto t (afterReload op m.value)) := by
    cases value : m.value with
    | none => exact ⟨none, .unresolved hpc (last.trans value)⟩
    | some p => exact ⟨none, .alreadyResolved hpc (last.trans value)⟩
  refine ⟨sequential, hs.goto (sequential.base hs) (fun _ => hpc ▸ trivial) fun op' p hp => ?_⟩
  cases value : m.value <;> rw [value] at hp <;> cases hp

theorem asked_step (hs : Sound view s) {op : k.primitive.Op} (hpc : s.pc t = .loadProvider op)
    (value : ProviderStorage) :
    Sequential s (.advance t) (s.goto t (afterProvider op (provider value))) ∧
      Sound view (s.goto t (afterProvider op (provider value))) := by
  have sequential : Sequential s (.advance t) (s.goto t (afterProvider op (provider value))) := by
    cases hp : provider value with
    | none => exact ⟨value, .unprovided hpc hp⟩
    | some p => exact ⟨value, .provided hpc hp⟩
  refine ⟨sequential, hs.goto (sequential.base hs) (fun _ => hpc ▸ trivial) fun op' p hp => ?_⟩
  cases hv : provider value <;> rw [hv] at hp <;> cases hp

omit [DecidableEq Thread] in
/-- While the lock is not resolved, no thread has returned from `Resolve`. -/
theorem Sound.nobody_calls (hs : Sound view s)
    (unset : ReleaseAcquire.newest s.resolved none = none) (u : Thread) (op : k.primitive.Op)
    (p : Pointer) : s.pc u ≠ .callPrimitive op p := by
  intro hpc
  cases unset.symm.trans (hs.knows_at hpc)

omit [DecidableEq Thread] in
theorem Sound.alone (hs : Sound view s) (ht : (s.pc t).InGuard) {u : Thread} (hu : u ≠ t) :
    ¬ (s.pc u).InGuard :=
  outside_of_ne hs.base ht hu

/-- What the owner does under the guard before it publishes the primitive. -/
theorem guarded_step (s' : WeakLock k) (hs : Sound view s) {b c : Pc k.primitive.Op} (hpc : s.pc t = b)
    (inside : b.InGuard) (unset : ReleaseAcquire.newest s.resolved none = none)
    (outside : ∀ op p, c ≠ .callPrimitive op p) (resolved : s'.resolved = s.resolved)
    (guard : s'.resolutionGuard = s.resolutionGuard) (moved : s'.pc = Function.update s.pc t c)
    (base : LazyLock.Invariant s'.newest)
    (made : ∀ p, p = .fallback ∨ p = selected s'.owned → s'.made p ≠ none)
    (informed : Informed s' (view t)) : Sound view s' := by
  have entered : (s.pc t).InGuard := hpc ▸ inside
  have owns := hs.owner t entered
  refine ⟨base, resolved ▸ hs.once, ?_, ?_, made, ?_, ?_⟩
  · rw [guard]
    exact hs.guard.change (hs.busy entered)
  · rw [guard, moved]
    exact owner_update (fun u hu hi => absurd hi (hs.alone entered hu))
      fun _ => owns.mono (Finset.Subset.refl _) informed
  · rw [resolved]
    intro m hm p hp
    rw [hs.once.all_null unset hm] at hp
    cases hp
  · rw [moved]
    exact callers_update (fun u _ op p hu => absurd hu (hs.nobody_calls unset u op p))
      fun op p hc => absurd hc (outside op p)

theorem create_newest (h : create event s t outcome = some (learnt, s')) :
    LazyLock.create s.newest t outcome = some s'.newest := by
  unfold create at h
  split at h
  · rename_i op p hpc
    have here : s.newest.pc t = .callFactory op p := hpc
    simp only [LazyLock.create, here]
    cases outcome with
    | object | null | exception =>
      obtain ⟨rfl, rfl⟩ := Prod.mk.inj (Option.some.inj h)
      rfl
  · cases h

theorem made_self (made : Pointer → Option ℕ) (p : Pointer) (event : ℕ) :
    Function.update made p (some event) p ≠ none := by
  rw [Function.update_self]
  exact Option.some_ne_none event

theorem made_known {made : Pointer → Option ℕ} {p : Pointer} {known : View}
    (h : ∀ q, made q ≠ none → Known (made q) known) (now : event ∈ known) :
    ∀ q, Function.update made p (some event) q ≠ none →
      Known (Function.update made p (some event) q) known := by
  intro q hq
  by_cases hp : q = p
  · subst hp
    rw [Function.update_self]
    exact ⟨event, rfl, now⟩
  · rw [Function.update_of_ne hp] at hq ⊢
    exact h q hq

theorem created_step (hs : Sound view s) {op : k.primitive.Op} {p : ProviderId}
    (hpc : s.pc t = .callFactory op p) (now : event ∈ view t)
    (h : create event s t outcome = some (learnt, s')) :
    Sequential s (.create t outcome) s' ∧ Sound view s' := by
  obtain ⟨unset, _, _⟩ := hs.knows_at hpc
  have informed := (hs.owner t (hpc ▸ trivial)).knows
  have written : (s.ownedAccesses.write event).WriteOrdered (view t) :=
    ⟨informed.owned.1, Finset.insert_subset now informed.owned.2⟩
  have sequential : Sequential s (.create t outcome) s' :=
    ⟨none, .created outcome hpc (create_newest h)⟩
  have guarded := guarded_step s' hs hpc (c := .selectPrimitive op) trivial unset
    fun _ _ he => by cases he
  refine ⟨sequential, ?_⟩
  have base := sequential.base hs
  simp only [create, hpc] at h
  cases outcome with
  | object =>
    obtain ⟨rfl, rfl⟩ := Prod.mk.inj (Option.some.inj h)
    refine guarded rfl rfl rfl base ?_ ⟨written, informed.resolved, made_known informed.made now⟩
    rintro q (rfl | rfl)
    · exact hs.made .fallback (.inl rfl)
    · exact made_self s.made _ event
  | null =>
    obtain ⟨rfl, rfl⟩ := Prod.mk.inj (Option.some.inj h)
    refine guarded rfl rfl rfl base ?_ ⟨written, informed.resolved, informed.made⟩
    intro q hq
    exact hs.made q (.inl (hq.elim id id))
  | exception =>
    obtain ⟨rfl, rfl⟩ := Prod.mk.inj (Option.some.inj h)
    exact guarded rfl rfl rfl base hs.made informed

theorem select_step (hs : Sound view s) {op : k.primitive.Op}
    (hpc : s.pc t = .selectPrimitive op) (now : event ∈ view t) (s' : WeakLock k)
    (hs' : s' = { s.goto t (.storeResolved op (selected s.owned)) with
      ownedAccesses := s.ownedAccesses.read event }) :
    Sequential s (.advance t) s' ∧ Sound view s' := by
  subst hs'
  have informed := (hs.owner t (hpc ▸ trivial)).knows
  have sequential : Sequential s (.advance t)
      { s.goto t (.storeResolved op (selected s.owned)) with
        ownedAccesses := s.ownedAccesses.read event } := ⟨none, .select hpc⟩
  refine ⟨sequential, guarded_step _ hs hpc trivial (hs.knows_at hpc) (fun _ _ he => by cases he)
    rfl rfl rfl (sequential.base hs) hs.made ⟨?_, informed.resolved, informed.made⟩⟩
  exact ⟨Finset.insert_subset now informed.owned.1, informed.owned.2⟩

theorem publish_step (hs : Sound view s) {op : k.primitive.Op} {p : Pointer} {before : View}
    {x : Atomic (Option Pointer)} (hpc : s.pc t = .storeResolved op p)
    (informed : Informed s before) (now : event ∈ view t)
    (hx : store s.resolved before i ⟨event, some p, before, false⟩ = some x) :
    Sequential s (.advance t) { s.goto t (.clearGuard op p) with resolved := x } ∧
      Sound view { s.goto t (.clearGuard op p) with resolved := x } := by
  obtain rfl := store_newest hx informed.resolved
  obtain ⟨unset, hselected⟩ := hs.knows_at hpc
  have entered : (s.pc t).InGuard := hpc ▸ trivial
  have owns := hs.owner t entered
  have sequential : Sequential s (.advance t) { s.goto t (.clearGuard op p) with
      resolved := s.resolved ++ [⟨event, some p, before, false⟩] } := by
    refine ⟨none, ?_⟩
    have published : LazyLock.Step none s.newest (.advance t)
        { s.newest.goto t (.clearGuard op p) with resolved := some p } := .publish hpc
    have last : ReleaseAcquire.newest (s.resolved ++ [⟨event, some p, before, false⟩]) none = some p :=
      newest_append _ _ _
    rwa [← last] at published
  have here : ∀ m ∈ s.resolved ++ [⟨event, some p, before, false⟩], m.event ∈ view t := by
    intro m hm
    rcases List.mem_append.mp hm with hm | hm
    · exact owns.knows.resolved m hm
    · rw [List.mem_singleton.mp hm]
      exact now
  have known := informed.made p (hs.made p (.inr hselected))
  refine ⟨sequential, sequential.base hs, hs.once.store unset _,
    hs.guard.change (hs.busy entered), ?_, hs.made, ?_, ?_⟩
  · exact owner_update (fun u hu hi => absurd hi (hs.alone entered hu))
      fun _ => owns.mono (Finset.Subset.refl _) ⟨owns.knows.owned, here, owns.knows.made⟩
  · intro m hm q hq
    rcases List.mem_append.mp hm with hm | hm
    · exact hs.published m hm q hq
    · obtain rfl := List.mem_singleton.mp hm
      obtain rfl := Option.some.inj hq
      exact known.mono (Finset.subset_insert _ _)
  · exact callers_update (fun u _ op p hu => absurd hu (hs.nobody_calls unset u op p))
      fun op p hc => by cases hc

theorem leave_step (hs : Sound view s) {op : k.primitive.Op} {p : Pointer} {before : View}
    {x : Atomic Bool} (hpc : s.pc t = .clearGuard op p)
    (owns : Owns s.resolutionGuard (Informed s) before) (grow : before ⊆ view t)
    (hx : store s.resolutionGuard before i ⟨event, false, before, false⟩ = some x) :
    Sequential s (.advance t) { s.goto t (.callPrimitive op p) with resolutionGuard := x } ∧
      Sound view { s.goto t (.callPrimitive op p) with resolutionGuard := x } := by
  have published := hs.knows_at hpc
  have entered : (s.pc t).InGuard := hpc ▸ trivial
  obtain ⟨free, guard⟩ := hs.guard.clear (hs.busy entered) owns hx (R := Informed s)
    (owns.knows.mono (Finset.subset_insert _ _))
  have sequential : Sequential s (.advance t)
      { s.goto t (.callPrimitive op p) with resolutionGuard := x } := by
    refine ⟨none, ?_⟩
    have left : LazyLock.Step none s.newest (.advance t)
        { s.newest.goto t (.callPrimitive op p) with resolutionGuard := false } := .leave hpc
    rwa [← free] at left
  have known := (owns.knows.made p (hs.made_published published)).mono grow
  refine ⟨sequential, sequential.base hs, hs.once, guard, ?_, hs.made, hs.published, ?_⟩
  · exact owner_update (fun u hu hi => absurd hi (hs.alone entered hu)) False.elim
  · refine callers_update (fun u _ => hs.callers u) fun op' q hc => ?_
    cases hc
    exact known

theorem performed_step (hs : Sound view s) {op : k.primitive.Op} {p : Pointer}
    {ret : k.primitive.Ret} {after : k.primitive.State} (hpc : s.pc t = .callPrimitive op p)
    (h : k.primitive.perform (s.objects p) t op ret = some after) (released : Pointer → View) :
    let s' : WeakLock k := { s.goto t .idle with
      objects := Function.update s.objects p after
      released := released
      history := s.history ++ [⟨t, op, ret⟩] }
    Sequential s (.perform t ret) s' ∧ Sound view s' := by
  have sequential : Sequential s (.perform t ret) { s.goto t .idle with
      objects := Function.update s.objects p after
      released := released
      history := s.history ++ [⟨t, op, ret⟩] } := ⟨none, .performed hpc h⟩
  refine ⟨sequential, sequential.base hs, hs.once, hs.guard, ?_, hs.made, hs.published, ?_⟩
  · exact owner_update (fun u _ => hs.owner u) False.elim
  · exact callers_update (fun u _ => hs.callers u) fun op q hc => by cases hc

/-- With the memory orders of the source each step is one of the sequentially consistent protocol,
and what the guard is to pass on stays known to its owner or to the one that takes it next. -/
theorem sound_step (hs : Sound view s)
    (h : WeakStep sync storage event (view (actor a)) s a learnt s')
    (grow : ∀ t, view t ⊆ view' t) (learns : learnt ⊆ view' (actor a))
    (now : event ∈ view' (actor a)) : Sequential s a s' ∧ Sound view' s' := by
  have later := hs.mono grow
  cases h with
  | @invoke t op hpc =>
    have sequential : Sequential s (.invoke t op) (s.goto t (.loadResolved op)) := ⟨none, .invoke hpc⟩
    exact ⟨sequential, later.goto (sequential.base hs) False.elim fun _ _ hc => by cases hc⟩
  | loaded hpc hm =>
    have present := load_mem hm
    exact ⟨loaded_sequential hs hpc present, loaded_sound later hpc present learns⟩
  | tested hpc hx => exact tested_step later hpc hx learns now
  | @reloaded t op i m hpc hm =>
    have informed := (hs.owner t (hpc ▸ trivial)).knows
    exact reloaded_step later hpc informed.resolved hm
  | @asked t op i m hpc _ => exact asked_step later hpc m.value
  | created outcome hpc hcreate => exact created_step later hpc now hcreate
  | select hpc => exact select_step later hpc now _ rfl
  | @publish t op p i x hpc hx =>
    have informed := (hs.owner t (hpc ▸ trivial)).knows
    exact publish_step later hpc informed now hx
  | @leave t op p i x hpc hx =>
    exact leave_step later hpc (hs.owner t (hpc ▸ trivial)) (grow t) hx
  | performed hpc h => exact performed_step later hpc h _

end

end ESPressioSystem.WeakLazyLock
