import ESPressioSystem.LazyLockRefinement
import ESPressioSystem.WeakLockWorld

set_option autoImplicit false

/-!
# The memory orders of a lazily resolved lock make it sequentially consistent
-/
namespace ESPressioSystem.LockMemoryOrders
open Transition Refinement SharedObject SynchronizationProvider LazyLock ReleaseAcquire WeakLazyLock
  LazyLockRefinement

section
variable {Thread : Type} [DecidableEq Thread] {k : Kind Thread}

def weakShows (w : WeakLockWorld.World k) :
    WeakLockWorld.WorldAction k → List (CallEvent Thread k.primitive.Op k.primitive.Ret)
  | .act a _ => lockShows (⟨none, w.lock.newest⟩ : Locks.World k) (.act a)
  | .process _ | .access _ _ => []

/-- A thread that has read an old null pointer will find the lock resolved, by way of the guard;
if it read the pointer only then, it would still have to load it. -/
def Lags {Op : Type} (resolved : Option Pointer) (c d : Pc Op) : Prop :=
  c = d ∨ ∃ op p, resolved = some p ∧ d = .loadResolved op ∧
    (c = .testAndSet op ∨ c = .reloadResolved op ∨ c = .clearGuard op p)

/-- The lock with the last values, but for the guard and the threads that lag. -/
def shadow (s : WeakLock k) (pc : Thread → Pc k.primitive.Op) (guard : Bool) : Lock k :=
  { s.newest with pc := pc, resolutionGuard := guard }

variable {s s' : WeakLock k} {pc : Thread → Pc k.primitive.Op} {guard : Bool}
  {storage : ProviderStorage} {a : LazyLock.Action k} {t : Thread} {l l' : Lock k}

theorem act_run (h : LazyLock.step storage l a = some l') :
    run Locks.worldNext ⟨storage, l⟩ [.act a] = some ⟨storage, l'⟩ := by
  rw [run_singleton]
  exact Option.map_eq_some_iff.mpr ⟨l', h, rfl⟩

theorem advance_run (h : LazyLock.advance storage l t = some l') :
    run Locks.worldNext ⟨storage, l⟩ [.act (.advance t)] = some ⟨storage, l'⟩ ∧
      trace Locks.worldNext lockShows ⟨storage, l⟩ [.act (.advance t)] = [] := by
  refine ⟨act_run h, ?_⟩
  rw [trace_cons [] ((run_singleton _ _ _).symm.trans (act_run (a := .advance t) h))]
  rfl

theorem lags_update {resolved : Option Pointer} {weak : Thread → Pc k.primitive.Op}
    {c d : Pc k.primitive.Op} (lags : ∀ u, Lags resolved (weak u) (pc u))
    (h : Lags resolved c d) :
    ∀ u, Lags resolved (Function.update weak t c u) (Function.update pc t d u) := by
  intro u
  by_cases hu : u = t
  · subst hu
    rwa [Function.update_self, Function.update_self]
  · rw [Function.update_of_ne hu, Function.update_of_ne hu]
    exact lags u

theorem lags_stay {resolved : Option Pointer} {weak : Thread → Pc k.primitive.Op}
    {c : Pc k.primitive.Op} (lags : ∀ u, Lags resolved (weak u) (pc u))
    (h : Lags resolved c (pc t)) : ∀ u, Lags resolved (Function.update weak t c u) (pc u) := by
  have moved := lags_update (t := t) lags h
  rwa [Function.update_eq_self] at moved

/-- What the sequentially consistent lock does while one step of the other is taken. -/
def Answered (storage : ProviderStorage) (s : WeakLock k) (pc : Thread → Pc k.primitive.Op)
    (guard : Bool) (shown : List (CallEvent Thread k.primitive.Op k.primitive.Ret))
    (s' : WeakLock k) : Prop :=
  ∃ bs storage' pc' guard', run Locks.worldNext ⟨storage, shadow s pc guard⟩ bs =
      some ⟨storage', shadow s' pc' guard'⟩ ∧
    trace Locks.worldNext lockShows ⟨storage, shadow s pc guard⟩ bs = shown ∧
    ∀ u, Lags s'.newest.resolved (s'.pc u) (pc' u)

theorem answered_stay {c : Pc k.primitive.Op} (lags : ∀ u, Lags s.newest.resolved (s.pc u) (pc u))
    (h : Lags s.newest.resolved c (pc t)) : Answered storage s pc guard [] (s.goto t c) :=
  ⟨[], storage, pc, guard, rfl, rfl, lags_stay lags h⟩

theorem answered_advance (guard' : Bool) {c d : Pc k.primitive.Op} (lags : ∀ u, Lags s'.newest.resolved (s.pc u) (pc u))
    (moved : s'.pc = Function.update s.pc t c) (h : Lags s'.newest.resolved c d)
    (hstep : LazyLock.advance storage (shadow s pc guard) t =
      some (shadow s' (Function.update pc t d) guard')) : Answered storage s pc guard [] s' := by
  obtain ⟨ran, silent⟩ := advance_run hstep
  refine ⟨_, _, _, _, ran, silent, ?_⟩
  rw [moved]
  exact lags_update lags h

theorem Lags.same {Op : Type} {resolved : Option Pointer} {c d : Pc Op} (h : Lags resolved c d)
    (plain : ∀ op p, c ≠ .testAndSet op ∧ c ≠ .reloadResolved op ∧ c ≠ .clearGuard op p) : d = c := by
  rcases h with rfl | ⟨op, p, _, _, hc | hc | hc⟩
  · rfl
  · exact absurd hc (plain op p).1
  · exact absurd hc (plain op p).2.1
  · exact absurd hc (plain op p).2.2

theorem Lags.unset {Op : Type} {c d : Pc Op} (h : Lags none c d) : d = c := by
  rcases h with rfl | ⟨_, _, hp, _⟩
  · rfl
  · cases hp

omit [DecidableEq Thread] in
/-- No thread lags behind a lock that is not resolved. -/
theorem lags_unset (lags : ∀ u, Lags s.newest.resolved (s.pc u) (pc u))
    (unset : s.newest.resolved = none) : pc = s.pc := by
  funext u
  have behind := lags u
  rw [unset] at behind
  exact behind.unset

variable {view : Thread → View} {sync : Handover k.primitive} {slot : Atomic ProviderStorage}
  {event i : ℕ} {learnt : View}

theorem loaded_answered (hs : Sound view s) (lags : ∀ u, Lags s.newest.resolved (s.pc u) (pc u))
    {op : k.primitive.Op} {m : Message (Option Pointer)} (hpc : s.pc t = .loadResolved op)
    (hm : m ∈ s.resolved) : Answered storage s pc guard [] (s.goto t (afterLoad op m.value)) := by
  have here : (shadow s pc guard).pc t = .loadResolved op := (hpc ▸ lags t).same fun _ _ => by simp
  cases value : m.value with
  | some p =>
    have published : (shadow s pc guard).resolved = some p := hs.once.newest hm value
    refine answered_advance guard (d := .callPrimitive op p) lags rfl (.inl rfl) ?_
    simp only [LazyLock.advance, here, published]
    rfl
  | none =>
    cases published : (shadow s pc guard).resolved with
    | none =>
      refine answered_advance guard (d := .testAndSet op) lags rfl (.inl rfl) ?_
      simp only [LazyLock.advance, here, published]
      rfl
    | some p => exact answered_stay lags (.inr ⟨op, p, published, here, .inl rfl⟩)

omit [DecidableEq Thread] in
theorem guard_free (hs : Sound view s) (base : LazyLock.Invariant (shadow s pc guard))
    (lags : ∀ u, Lags s.newest.resolved (s.pc u) (pc u))
    (free : ReleaseAcquire.newest s.resolutionGuard false = false) : guard = false := by
  cases guard with
  | false => rfl
  | true =>
    obtain ⟨u, hu⟩ := base.token.held.mp rfl
    have inside : (s.pc u).InGuard := by
      rcases lags u with same | ⟨op, p, _, away, _⟩
      · rw [same]
        exact hu
      · rw [show (shadow s pc true).pc u = _ from away] at hu
        exact absurd hu id
    cases free.symm.trans (hs.busy inside)

theorem tested_answered (hs : Sound view s) (base : LazyLock.Invariant (shadow s pc guard))
    (lags : ∀ u, Lags s.newest.resolved (s.pc u) (pc u)) {op : k.primitive.Op} {m : Message Bool}
    {flag : Atomic Bool} {before : View} (hpc : s.pc t = .testAndSet op)
    (hx : exchange s.resolutionGuard before i event true ∅ = some (m, flag)) :
    Answered storage s pc guard [] { s.goto t (afterTest op m.value) with resolutionGuard := flag } := by
  cases value : m.value with
  | true =>
    have still : s.goto t (.testAndSet op) = s := by
      rw [WeakLock.goto, ← hpc, Function.update_eq_self]
    simp only [afterTest, still]
    exact ⟨[], storage, pc, guard, rfl, rfl, lags⟩
  | false =>
    have free := guard_free hs base lags (hs.guard.enter hx value (Q := Informed s)).1
    rcases hpc ▸ lags t with same | ⟨_, p, published, away, hop | hop | hop⟩
    · have here : (shadow s pc guard).pc t = .testAndSet op := same.symm
      refine answered_advance true (c := .reloadResolved op) lags rfl (.inl rfl) ?_
      simp only [LazyLock.advance, here, show (shadow s pc guard).resolutionGuard = false from free]
      rfl
    · cases hop
      exact ⟨[], storage, pc, guard, rfl, rfl,
        lags_stay lags (.inr ⟨op, p, published, away, .inr (.inl rfl)⟩)⟩
    · cases hop
    · cases hop

theorem reloaded_answered (lags : ∀ u, Lags s.newest.resolved (s.pc u) (pc u))
    {op : k.primitive.Op} {m : Message (Option Pointer)} {before : View}
    (hpc : s.pc t = .reloadResolved op) (informed : ∀ n ∈ s.resolved, n.event ∈ before)
    (hm : load s.resolved before i = some m) :
    Answered storage s pc guard [] (s.goto t (afterReload op m.value)) := by
  obtain ⟨_, last⟩ := load_newest hm informed none
  rcases hpc ▸ lags t with same | ⟨_, p, published, away, hop | hop | hop⟩
  · have here : (shadow s pc guard).pc t = .reloadResolved op := same.symm
    have read : (shadow s pc guard).resolved = m.value := last
    refine answered_advance guard (d := afterReload op m.value) lags rfl (.inl rfl) ?_
    cases value : m.value with
    | some p | none =>
      simp only [LazyLock.advance, here, read, value]
      rfl
  · cases hop
  · cases hop
    have value : m.value = some p := last.symm.trans published
    rw [value]
    exact answered_stay lags (.inr ⟨op, p, published, away, .inr (.inr rfl)⟩)
  · cases hop

/-- The sequentially consistent lock loads the provider when it is installed, be it again. -/
theorem asked_answered (hs : Sound view s) (lags : ∀ u, Lags s.newest.resolved (s.pc u) (pc u))
    {op : k.primitive.Op} (hpc : s.pc t = .loadProvider op) (value : ProviderStorage) :
    Answered storage s pc guard [] (s.goto t (afterProvider op (provider value))) := by
  obtain rfl : pc = s.pc := lags_unset lags (hs.knows_at hpc).1
  have here : (shadow s s.pc guard).pc t = .loadProvider op := hpc
  have installs : Locks.worldNext ⟨storage, shadow s s.pc guard⟩ (.change (.setProvider value)) =
      some ⟨value, shadow s s.pc guard⟩ := rfl
  have loads : LazyLock.advance value (shadow s s.pc guard) t = some
      (shadow (s.goto t (afterProvider op (provider value)))
        (Function.update s.pc t (afterProvider op (provider value))) guard) := by
    cases hp : provider value with
    | some p | none =>
      simp only [LazyLock.advance, here, hp]
      rfl
  obtain ⟨ran, silent⟩ := advance_run loads
  refine ⟨[.change (.setProvider value), .act (.advance t)], value, _, guard,
    (run_cons _).mpr ⟨_, installs, ran⟩, ?_, lags_update lags (.inl rfl)⟩
  rw [trace_cons _ installs, silent]
  rfl

theorem created_answered (hs : Sound view s) (lags : ∀ u, Lags s.newest.resolved (s.pc u) (pc u))
    {op : k.primitive.Op} {p : ProviderId} {outcome : Outcome} (hpc : s.pc t = .callFactory op p)
    (h : WeakLazyLock.create event s t outcome = some (learnt, s')) :
    Answered storage s pc guard [] s' := by
  obtain rfl : pc = s.pc := lags_unset lags (hs.knows_at hpc).1
  have creates : LazyLock.create (shadow s s.pc guard) t outcome =
      some (shadow s' s'.pc guard) := by
    have here : (shadow s s.pc guard).pc t = .callFactory op p := hpc
    simp only [WeakLazyLock.create, hpc] at h
    simp only [LazyLock.create, here]
    cases outcome with
    | object | null | exception =>
      obtain ⟨rfl, rfl⟩ := Prod.mk.inj (Option.some.inj h)
      rfl
  have ran : run Locks.worldNext ⟨storage, shadow s s.pc guard⟩ [.act (.create t outcome)] =
      some ⟨storage, shadow s' s'.pc guard⟩ := act_run creates
  refine ⟨_, _, _, _, ran, ?_, fun u => .inl rfl⟩
  rw [trace_cons [] ((run_singleton _ _ _).symm.trans ran)]
  rfl

theorem publish_answered (hs : Sound view s) (lags : ∀ u, Lags s.newest.resolved (s.pc u) (pc u))
    {op : k.primitive.Op} {p : Pointer} {m : Message (Option Pointer)}
    (hpc : s.pc t = .storeResolved op p) (value : m.value = some p) :
    Answered storage s pc guard []
      { s.goto t (.clearGuard op p) with resolved := s.resolved ++ [m] } := by
  obtain rfl : pc = s.pc := lags_unset lags (hs.knows_at hpc).1
  refine answered_advance guard (d := .clearGuard op p) (fun u => .inl rfl) rfl (.inl rfl) ?_
  have here : (shadow s s.pc guard).pc t = .storeResolved op p := hpc
  have last : ReleaseAcquire.newest (s.resolved ++ [m]) none = some p :=
    (newest_append _ _ _).trans value
  simp only [LazyLock.advance, here]
  simp only [shadow, WeakLock.newest, last]
  rfl

theorem leave_answered (hs : Sound view s) (lags : ∀ u, Lags s.newest.resolved (s.pc u) (pc u))
    {op : k.primitive.Op} {p : Pointer} {x : Atomic Bool} (hpc : s.pc t = .clearGuard op p) :
    Answered storage s pc guard []
      { s.goto t (.callPrimitive op p) with resolutionGuard := x } := by
  have resolved : (shadow s pc guard).resolved = some p := hs.knows_at hpc
  rcases hpc ▸ lags t with same | ⟨_, q, published, away, hop | hop | hop⟩
  · have here : (shadow s pc guard).pc t = .clearGuard op p := same.symm
    refine answered_advance false (c := .callPrimitive op p) lags rfl (.inl rfl) ?_
    simp only [LazyLock.advance, here]
    rfl
  · cases hop
  · cases hop
  · cases hop
    have here : (shadow s pc guard).pc t = .loadResolved op := away
    refine answered_advance guard (c := .callPrimitive op p) lags rfl (.inl rfl) ?_
    simp only [LazyLock.advance, here, resolved]
    rfl

theorem performed_answered (lags : ∀ u, Lags s.newest.resolved (s.pc u) (pc u))
    {op : k.primitive.Op} {p : Pointer} {ret : k.primitive.Ret} {after : k.primitive.State}
    (hpc : s.pc t = .callPrimitive op p)
    (h : k.primitive.perform (s.objects p) t op ret = some after) (released : Pointer → View) :
    Answered storage s pc guard (lockShows (⟨none, s.newest⟩ : Locks.World k) (.act (.perform t ret)))
      { s.goto t .idle with
        objects := Function.update s.objects p after
        released := released
        history := s.history ++ [⟨t, op, ret⟩] } := by
  have here : (shadow s pc guard).pc t = .callPrimitive op p := (hpc ▸ lags t).same fun _ _ => by simp
  have performs : LazyLock.step storage (shadow s pc guard) (.perform t ret) =
      some (shadow { s.goto t .idle with
        objects := Function.update s.objects p after
        released := released
        history := s.history ++ [⟨t, op, ret⟩] } (Function.update pc t .idle) guard) := by
    simp only [LazyLock.step, LazyLock.perform, here]
    exact Option.map_eq_some_iff.mpr ⟨after, h, rfl⟩
  have ran := act_run performs
  refine ⟨_, _, _, _, ran, ?_, lags_update lags (.inl rfl)⟩
  rw [trace_cons [] ((run_singleton _ _ _).symm.trans ran)]
  have shown : s.newest.pc t = .callPrimitive op p := hpc
  simp only [lockShows, here, shown, trace_nil, List.append_nil]

theorem invoke_answered (lags : ∀ u, Lags s.newest.resolved (s.pc u) (pc u)) {op : k.primitive.Op}
    (hpc : s.pc t = .idle) :
    Answered storage s pc guard [.invoked t op] (s.goto t (.loadResolved op)) := by
  have here : (shadow s pc guard).pc t = .idle := (hpc ▸ lags t).same fun _ _ => by simp
  have invokes : LazyLock.step storage (shadow s pc guard) (.invoke t op) =
      some (shadow (s.goto t (.loadResolved op)) (Function.update pc t (.loadResolved op)) guard) := by
    simp only [LazyLock.step, LazyLock.invoke, here]
    rfl
  have ran := act_run invokes
  refine ⟨_, _, _, _, ran, ?_, lags_update lags (.inl rfl)⟩
  rw [trace_cons [] ((run_singleton _ _ _).symm.trans ran)]
  rfl

theorem step_answered (hs : Sound view s) (base : LazyLock.Invariant (shadow s pc guard))
    (lags : ∀ u, Lags s.newest.resolved (s.pc u) (pc u))
    (h : WeakStep sync slot event (view (Locks.actor a)) s a learnt s') :
    Answered storage s pc guard (lockShows (⟨none, s.newest⟩ : Locks.World k) (.act a)) s' := by
  cases h with
  | invoke hpc => exact invoke_answered lags hpc
  | loaded hpc hm => exact loaded_answered hs lags hpc (load_mem hm)
  | tested hpc hx => exact tested_answered hs base lags hpc hx
  | @reloaded t op i m hpc hm =>
    have informed := (hs.owner t (hpc ▸ trivial)).knows
    exact reloaded_answered lags hpc informed.resolved hm
  | @asked t op i m hpc _ => exact asked_answered hs lags hpc m.value
  | created outcome hpc hcreate => exact created_answered hs lags hpc hcreate
  | @select t op hpc =>
    have here : (shadow s pc guard).pc t = .selectPrimitive op :=
      (hpc ▸ lags t).same fun _ _ => by simp
    refine answered_advance guard (c := .storeResolved op (selected s.owned)) lags rfl (.inl rfl) ?_
    simp only [LazyLock.advance, here]
    rfl
  | @publish t op p i x hpc hx =>
    have informed := (hs.owner t (hpc ▸ trivial)).knows
    obtain rfl := store_newest hx informed.resolved
    exact publish_answered hs lags hpc rfl
  | leave hpc _ => exact leave_answered hs lags hpc
  | performed hpc h => exact performed_answered lags hpc h _

/-- The other lock, among providers of its own. -/
structure Follows (w : WeakLockWorld.World k) (v : Locks.World k) : Prop where
  sound : Sound w.process.threads.view w.lock
  base : LazyLock.Invariant v.lock
  same : v.lock = shadow w.lock v.lock.pc v.lock.resolutionGuard
  lags : ∀ t, Lags w.lock.newest.resolved (w.lock.pc t) (v.lock.pc t)

omit [DecidableEq Thread] in
theorem follows_initial (k : Kind Thread) :
    Follows (WeakLockWorld.initialWorld k) (Locks.initialWorld k initialStorage) where
  sound := sound_initial k _
  base := LazyLock.initial_invariant k
  same := rfl
  lags _ := .inl rfl

theorem base_run {v v' : Locks.World k} {bs : List (Locks.WorldAction k)}
    (h : LazyLock.Invariant v.lock) (hrun : run Locks.worldNext v bs = some v') :
    LazyLock.Invariant v'.lock := by
  refine invariant_of_run (I := fun v : Locks.World k => LazyLock.Invariant v.lock) ?_ h hrun
  intro u b u' hu hstep
  rcases Locks.worldNext_cases hstep with same | ⟨c, rfl, hc⟩
  · exact same ▸ hu
  · exact step_invariant hu hc

theorem follows_step (w : WeakLockWorld.World k) (b : WeakLockWorld.WorldAction k)
    (w' : WeakLockWorld.World k) (v : Locks.World k) (hw : Follows w v)
    (h : WeakLockWorld.worldNext sync w b = some w') :
    ∃ bs v', run Locks.worldNext v bs = some v' ∧
      trace Locks.worldNext lockShows v bs = weakShows w b ∧ Follows w' v' := by
  cases b with
  | process c =>
    obtain ⟨p, hp, rfl⟩ := Option.map_eq_some_iff.mp h
    have ext := ProviderPublication.extends_step (ProviderPublication.step_cases hp)
    exact ⟨[], v, rfl, rfl, hw.sound.mono ext.views, hw.base, hw.same, hw.lags⟩
  | access t write =>
    rw [← Option.some.inj h]
    have grow := Threads.view_grows w.process.threads t ∅
    exact ⟨[], v, rfl, rfl, hw.sound.mono grow, hw.base, hw.same, hw.lags⟩
  | act c i =>
    obtain ⟨⟨learnt, lock⟩, hstep, rfl⟩ := Option.map_eq_some_iff.mp h
    have taken := WeakLazyLock.step_cases hstep
    have grow := Threads.view_grows w.process.threads (Locks.actor c) learnt
    obtain ⟨_, sound⟩ := sound_step hw.sound taken grow Threads.learnt_subset Threads.clock_mem
    have here : v = ⟨v.storage, shadow w.lock v.lock.pc v.lock.resolutionGuard⟩ := by
      rw [← hw.same]
    have base := hw.base
    rw [hw.same] at base
    have answered : Answered v.storage w.lock v.lock.pc v.lock.resolutionGuard
        (weakShows w (.act c i)) lock := step_answered hw.sound base hw.lags taken
    obtain ⟨bs, storage, pc, guard, ran, shown, lags⟩ := answered
    rw [← here] at ran shown
    exact ⟨bs, _, ran, shown, sound, base_run hw.base ran, rfl, lags⟩

/-- The weak lock that has only ever read and stored last values. -/
structure Mirrors (v : Locks.World k) (w : WeakLockWorld.World k) : Prop where
  lock : w.lock.newest = v.lock
  storage : newest w.process.storage none = v.storage
  resolved : w.lock.resolved ≠ []
  guard : w.lock.resolutionGuard ≠ []
  provided : w.process.storage ≠ []

omit [DecidableEq Thread] in
theorem mirrors_initial (k : Kind Thread) :
    Mirrors (Locks.initialWorld k initialStorage) (WeakLockWorld.initialWorld k) :=
  ⟨rfl, rfl, List.cons_ne_nil _ _, List.cons_ne_nil _ _, List.cons_ne_nil _ _⟩

theorem step_taken {before : View} (h : WeakStep sync slot event before s a learnt s') :
    ∃ i, WeakLazyLock.step sync slot event before s a i = some (learnt, s') := by
  cases h with
  | invoke hpc => exact ⟨0, by simp only [WeakLazyLock.step, WeakLazyLock.invoke, hpc]⟩
  | @loaded t op i m hpc hm =>
    exact ⟨i, by simp only [WeakLazyLock.step, WeakLazyLock.advance, hpc, hm, Option.map_some]⟩
  | @tested t op i m x hpc hx =>
    exact ⟨i, by simp only [WeakLazyLock.step, WeakLazyLock.advance, hpc, hx, Option.map_some]⟩
  | @reloaded t op i m hpc hm =>
    exact ⟨i, by simp only [WeakLazyLock.step, WeakLazyLock.advance, hpc, hm, Option.map_some]⟩
  | @asked t op i m hpc hm =>
    exact ⟨i, by simp only [WeakLazyLock.step, WeakLazyLock.advance, hpc, hm, Option.map_some]⟩
  | created outcome hpc h => exact ⟨0, h⟩
  | select hpc => exact ⟨0, by simp only [WeakLazyLock.step, WeakLazyLock.advance, hpc]⟩
  | @publish t op p i x hpc hx =>
    exact ⟨i, by simp only [WeakLazyLock.step, WeakLazyLock.advance, hpc, hx, Option.map_some]⟩
  | @leave t op p i x hpc hx =>
    exact ⟨i, by simp only [WeakLazyLock.step, WeakLazyLock.advance, hpc, hx, Option.map_some]⟩
  | performed hpc h =>
    exact ⟨0, by simp only [WeakLazyLock.step, WeakLazyLock.perform, hpc, h, Option.map_some]⟩

/-- A step of the weak lock, by way of last values, to what the other comes to. -/
def Mirrored (sync : Handover k.primitive) (slot : Atomic ProviderStorage) (event : ℕ) (view : View)
    (s : WeakLock k) (a : LazyLock.Action k) (l : Lock k) : Prop :=
  ∃ learnt s', WeakStep sync slot event view s a learnt s' ∧ s'.newest = l ∧
    s'.resolved ≠ [] ∧ s'.resolutionGuard ≠ []

theorem advance_mirrored {before : View} (resolved : s.resolved ≠ [])
    (taken : s.resolutionGuard ≠ []) (provided : slot ≠ [])
    (h : LazyLock.advance (newest slot none) s.newest t = some l) :
    Mirrored sync slot event before s (.advance t) l := by
  have grown : ∀ {Value : Type} (x : Atomic Value) (m : Message Value), x ++ [m] ≠ [] := by simp
  have here : s.newest.pc t = s.pc t := rfl
  simp only [LazyLock.advance, here] at h
  cases hpc : s.pc t with
  | idle | callFactory _ _ | callPrimitive _ _ => simp [hpc] at h
  | loadResolved op =>
    obtain ⟨i, m, hm, value⟩ := loads_newest resolved before none
    have last : s.newest.resolved = m.value := value.symm
    refine ⟨_, _, .loaded hpc hm, ?_, resolved, taken⟩
    cases hv : m.value <;> simp only [hpc, last, hv, Option.some.injEq] at h <;> exact h
  | testAndSet op =>
    obtain ⟨i, m, hm, value⟩ := exchanges_newest taken before event true ∅ false
    have last : s.newest.resolutionGuard = m.value := value.symm
    refine ⟨_, _, .tested hpc hm, ?_, resolved, grown _ _⟩
    have busy := newest_append s.resolutionGuard ⟨event, true, m.known ∪ ∅, true⟩ false
    cases hv : m.value with
    | true =>
      simp only [hpc, last, hv, if_true, Option.some.injEq] at h
      have still : Function.update s.pc t (.testAndSet op) = s.pc := by
        rw [← hpc, Function.update_eq_self]
      rw [← h]
      simp only [WeakLock.newest, WeakLock.goto, afterTest, still, busy, ← value, hv]
    | false =>
      simp only [hpc, last, hv, Bool.false_eq_true, if_false, Option.some.injEq] at h
      rw [← h]
      simp only [WeakLock.newest, WeakLock.goto, Lock.goto, afterTest, busy]
  | reloadResolved op =>
    obtain ⟨i, m, hm, value⟩ := loads_newest resolved before none
    have last : s.newest.resolved = m.value := value.symm
    refine ⟨_, _, .reloaded hpc hm, ?_, resolved, taken⟩
    cases hv : m.value <;> simp only [hpc, last, hv, Option.some.injEq] at h <;> exact h
  | loadProvider op =>
    obtain ⟨i, m, hm, value⟩ := loads_newest provided before none
    refine ⟨_, _, .asked hpc hm, ?_, resolved, taken⟩
    cases hv : provider m.value <;> simp only [hpc, ← value, hv, Option.some.injEq] at h <;> exact h
  | selectPrimitive op =>
    simp only [hpc, Option.some.injEq] at h
    exact ⟨_, _, .select hpc, h, resolved, taken⟩
  | storeResolved op p =>
    obtain ⟨i, hx⟩ := stores_newest s.resolved before ⟨event, some p, before, false⟩
    simp only [hpc, Option.some.injEq] at h
    refine ⟨_, _, .publish hpc hx, ?_, grown _ _, taken⟩
    rw [← h]
    simp only [WeakLock.newest, newest_append]
    rfl
  | clearGuard op p =>
    obtain ⟨i, hx⟩ := stores_newest s.resolutionGuard before ⟨event, false, before, false⟩
    simp only [hpc, Option.some.injEq] at h
    refine ⟨_, _, .leave hpc hx, ?_, resolved, grown _ _⟩
    rw [← h]
    simp only [WeakLock.newest, newest_append]
    rfl

theorem step_mirrored {before : View} (resolved : s.resolved ≠ [])
    (taken : s.resolutionGuard ≠ []) (provided : slot ≠ [])
    (h : LazyLock.step (newest slot none) s.newest a = some l) :
    Mirrored sync slot event before s a l := by
  cases a with
  | advance t => exact advance_mirrored resolved taken provided h
  | invoke t op =>
    cases LazyLock.step_cases h with
    | invoke hpc => exact ⟨_, _, .invoke hpc, rfl, resolved, taken⟩
  | create t outcome =>
    cases LazyLock.step_cases h with
    | @created _ op p _ _ hpc hcreate =>
      have here : s.pc t = .callFactory op p := hpc
      have created : ∃ s', WeakLazyLock.create event s t outcome = some (∅, s') ∧ s'.newest = l ∧
          s'.resolved = s.resolved ∧ s'.resolutionGuard = s.resolutionGuard := by
        simp only [LazyLock.create, hpc] at hcreate
        simp only [WeakLazyLock.create, here]
        cases outcome with
        | object | null | exception => exact ⟨_, rfl, Option.some.inj hcreate, rfl, rfl⟩
      obtain ⟨s', hs', same, sameResolved, sameGuard⟩ := created
      exact ⟨∅, s', .created outcome hpc hs', same, sameResolved ▸ resolved, sameGuard ▸ taken⟩
  | perform t ret =>
    cases LazyLock.step_cases h with
    | performed hpc hafter => exact ⟨_, _, .performed hpc hafter, rfl, resolved, taken⟩

theorem change_mirrored (p : ProviderPublication.Process Thread) (t : Thread) (c : ProviderChange) :
    ∃ i p', ProviderPublication.next ProviderPublication.synchronization p (.change t c i) = some p' ∧
      newest p'.storage none = c.apply (newest p.storage none) ∧ p'.storage ≠ [] := by
  have puts : ProviderPublication.synchronization.stored c = some (c.apply (newest p.storage none)) := by
    cases c with
    | setProvider q => cases q <;> rfl
    | resetProvider => rfl
  obtain ⟨i, hi⟩ := stores_newest p.storage (p.threads.view t)
    ⟨p.threads.clock, c.apply (newest p.storage none), p.threads.view t, false⟩
  let m : Message ProviderStorage :=
    ⟨p.threads.clock, c.apply (newest p.storage none), p.threads.view t, false⟩
  refine ⟨i, { p with threads := p.threads.step t ∅, storage := p.storage ++ [m] }, ?_,
    newest_append p.storage m none, by simp⟩
  simp only [ProviderPublication.next, ProviderPublication.change, puts]
  rw [if_neg (by decide), hi, Option.map_some]

theorem mirrors_step [Inhabited Thread] (v : Locks.World k) (b : Locks.WorldAction k)
    (v' : Locks.World k) (w : WeakLockWorld.World k) (hw : Mirrors v w)
    (h : Locks.worldNext v b = some v') :
    ∃ bs w', run (WeakLockWorld.worldNext sync) w bs = some w' ∧
      trace (WeakLockWorld.worldNext sync) weakShows w bs = lockShows v b ∧ Mirrors v' w' := by
  cases b with
  | change c =>
    obtain ⟨i, p, hp, installed, provided⟩ := change_mirrored w.process default c
    have taken : WeakLockWorld.worldNext sync w (.process (.change default c i)) =
        some { w with process := p } := Option.map_eq_some_iff.mpr ⟨p, hp, rfl⟩
    refine ⟨_, _, (run_singleton _ _ _).trans taken, by rw [trace_cons _ taken]; rfl, ?_⟩
    rw [← Option.some.inj h]
    exact ⟨hw.lock, by rw [installed, hw.storage], hw.resolved, hw.guard, provided⟩
  | act c =>
    obtain ⟨lock, hlock, rfl⟩ := Option.map_eq_some_iff.mp h
    rw [← hw.lock, ← hw.storage] at hlock
    obtain ⟨learnt, s', hs', same, resolved, guard⟩ :=
      step_mirrored hw.resolved hw.guard hw.provided hlock
    obtain ⟨i, hi⟩ := step_taken hs'
    have taken : WeakLockWorld.worldNext sync w (.act c i) = some _ :=
      Option.map_eq_some_iff.mpr ⟨(learnt, s'), hi, rfl⟩
    refine ⟨_, _, (run_singleton _ _ _).trans taken, ?_, same, hw.storage, resolved, guard, hw.provided⟩
    rw [trace_cons _ taken, trace_nil, List.append_nil]
    obtain ⟨storage, lock⟩ := v
    obtain rfl : w.lock.newest = lock := hw.lock
    rfl

/-- What a program can see of a lazily resolved lock under the memory orders of the source is what
it could see if every access were sequentially consistent. -/
theorem lazy_lock_memory_orders [Inhabited Thread] (k : Kind Thread) (sync : Handover k.primitive)
    (events : List (CallEvent Thread k.primitive.Op k.primitive.Ret)) :
    (∃ as w, run (WeakLockWorld.worldNext sync) (WeakLockWorld.initialWorld k) as = some w ∧
        trace (WeakLockWorld.worldNext sync) weakShows (WeakLockWorld.initialWorld k) as = events) ↔
      ∃ as v, run Locks.worldNext (Locks.initialWorld k initialStorage) as = some v ∧
        trace Locks.worldNext lockShows (Locks.initialWorld k initialStorage) as = events := by
  constructor
  · rintro ⟨as, w, hrun, rfl⟩
    obtain ⟨bs, v, ran, seen, _⟩ := simulation_run follows_step (follows_initial k) hrun
    exact ⟨bs, v, ran, seen⟩
  · rintro ⟨as, v, hrun, rfl⟩
    obtain ⟨bs, w, ran, seen, _⟩ := simulation_run mirrors_step (mirrors_initial k) hrun
    exact ⟨bs, w, ran, seen⟩

end

end ESPressioSystem.LockMemoryOrders
