import ESPressioSystem.ReleaseAcquire
import ESPressioSystem.SynchronizationProvider
import ESPressioSystem.Transition

set_option autoImplicit false

/-!
# The process-wide providers, with the memory orders of their accesses

The headers repeat one registry: an atomic pointer that is stored with release order and loaded
with acquire order. They differ in what the pointer is to begin with and in what a null pointer
does; that of the memory providers is exchanged, and the provider before is returned.
-/
namespace ESPressioSystem.ProviderPublication
open Transition ReleaseAcquire SynchronizationProvider

inductive NullPointer where
  | stored
  | ignored
  | restoresFallback
  deriving DecidableEq

/-- `fallback` is the static fallback object, or null. -/
structure Registry where
  fallback : ProviderStorage
  null : NullPointer
  exchanges : Bool

def synchronization : Registry := ⟨none, .stored, false⟩
def queue : Registry := ⟨none, .stored, false⟩
def gpioController : Registry := ⟨none, .stored, false⟩
def highResolutionCounter : Registry := ⟨none, .stored, false⟩
def execution (fallbackProvider : ProviderId) : Registry := ⟨some fallbackProvider, .ignored, false⟩
def monotonicClock (fallback : ProviderId) : Registry := ⟨some fallback, .ignored, false⟩
def entropySource (fallback : ProviderId) : Registry := ⟨some fallback, .ignored, false⟩
def memory (defaultProvider : ProviderId) : Registry :=
  ⟨some defaultProvider, .restoresFallback, true⟩

/-- The pointer that `SetProvider` or `ResetProvider` puts in, unless it does nothing. -/
def Registry.stored (r : Registry) : ProviderChange → Option ProviderStorage
  | .setProvider (some p) => some (some p)
  | .setProvider none =>
    match r.null with
    | .stored => some none
    | .ignored => none
    | .restoresFallback => some r.fallback
  | .resetProvider => some r.fallback

/-- `provider != nullptr ? *provider : fallback` -/
def Registry.active (r : Registry) : ProviderStorage → Option ProviderId
  | some p => some p
  | none => r.fallback

/-- Each provider with the event of its construction, and what `SetProvider` has returned. -/
structure Process (Thread : Type) where
  threads : Threads Thread
  storage : Atomic ProviderStorage
  providers : ProviderId → Option ℕ
  returned : List ProviderStorage

inductive Action (Thread : Type) where
  | construct (t : Thread) (p : ProviderId)
  | change (t : Thread) (c : ProviderChange) (i : ℕ)
  | get (t : Thread) (i : ℕ)

section
variable {Thread : Type} [DecidableEq Thread]

/-- The pointer and the fallback are there before any thread asks for them. -/
def initial (Thread : Type) (r : Registry) : Process Thread where
  threads := ⟨1, fun _ => {0}⟩
  storage := initialised 0 r.fallback
  providers := fun p => if r.fallback = some p then some 0 else none
  returned := []

def construct (w : Process Thread) (t : Thread) (p : ProviderId) : Option (Process Thread) :=
  match w.providers p with
  | none => some { w with
      threads := w.threads.step t ∅
      providers := Function.update w.providers p (some w.threads.clock) }
  | some _ => none

def change (r : Registry) (w : Process Thread) (t : Thread) (c : ProviderChange) (i : ℕ) :
    Option (Process Thread) :=
  let view := w.threads.view t
  match r.stored c with
  | none => some { w with threads := w.threads.step t ∅ }
  | some v =>
    if r.exchanges then
      (exchange w.storage view i w.threads.clock v view).map fun (m, storage) => { w with
        threads := w.threads.step t m.known
        storage := storage
        returned := w.returned ++ [m.value] }
    else
      (store w.storage view i ⟨w.threads.clock, v, view, false⟩).map fun storage => { w with
        threads := w.threads.step t ∅
        storage := storage }

def get (w : Process Thread) (t : Thread) (i : ℕ) : Option (Message ProviderStorage × Process Thread) :=
  (load w.storage (w.threads.view t) i).map fun m =>
    (m, { w with threads := w.threads.step t m.known })

def next (r : Registry) (w : Process Thread) : Action Thread → Option (Process Thread)
  | .construct t p => construct w t p
  | .change t c i => change r w t c i
  | .get t i => (get w t i).map Prod.snd

/-- Who installs a provider knows that it is constructed. -/
def Informed (w : Process Thread) : Action Thread → Prop
  | .change t (.setProvider (some p)) _ => Known (w.providers p) (w.threads.view t)
  | _ => True

instance (w : Process Thread) (a : Action Thread) : Decidable (Informed w a) := by
  unfold Informed
  split <;> infer_instance

inductive Step (r : Registry) (w : Process Thread) : Action Thread → Process Thread → Prop where
  | constructed {t : Thread} {p : ProviderId} (fresh : w.providers p = none) :
      Step r w (.construct t p) { w with
        threads := w.threads.step t ∅
        providers := Function.update w.providers p (some w.threads.clock) }
  | ignored {t : Thread} {c : ProviderChange} {i : ℕ} (h : r.stored c = none) :
      Step r w (.change t c i) { w with threads := w.threads.step t ∅ }
  | exchanged {t : Thread} {c : ProviderChange} {i : ℕ} {v : ProviderStorage}
      {before after : Atomic ProviderStorage} {m : Message ProviderStorage}
      (h : r.stored c = some v) (here : w.storage = before ++ m :: after)
      (apart : Joined after = false) : Step r w (.change t c i) { w with
        threads := w.threads.step t m.known
        storage := before ++ m ::
          ⟨w.threads.clock, v, m.known ∪ w.threads.view t, true⟩ :: after
        returned := w.returned ++ [m.value] }
  | stored {t : Thread} {c : ProviderChange} {i : ℕ} {v : ProviderStorage}
      {before after : Atomic ProviderStorage} (h : r.stored c = some v) (plain : r.exchanges = false)
      (here : w.storage = before ++ after) : Step r w (.change t c i) { w with
        threads := w.threads.step t ∅
        storage := before ++ ⟨w.threads.clock, v, w.threads.view t, false⟩ :: after }
  | got {t : Thread} {i : ℕ} {m : Message ProviderStorage} (hm : m ∈ w.storage) :
      Step r w (.get t i) { w with threads := w.threads.step t m.known }

theorem step_cases {r : Registry} {w w' : Process Thread} {a : Action Thread}
    (h : next r w a = some w') : Step r w a w' := by
  cases a with
  | construct t p =>
    simp only [next, construct] at h
    split at h
    · rename_i fresh
      exact Option.some.inj h ▸ .constructed fresh
    · cases h
  | change t c i =>
    simp only [next, change] at h
    split at h
    · rename_i ignored
      exact Option.some.inj h ▸ .ignored ignored
    · rename_i v hv
      split at h
      · obtain ⟨⟨m, storage⟩, hx, rfl⟩ := Option.map_eq_some_iff.mp h
        obtain ⟨before, after, here, _, apart, rfl⟩ := exchange_cases hx
        exact .exchanged hv here apart
      · rename_i plain
        obtain ⟨storage, hx, rfl⟩ := Option.map_eq_some_iff.mp h
        obtain ⟨before, after, here, rfl, _⟩ := store_cases hx
        exact .stored hv (Bool.eq_false_iff.mpr plain) here
  | get t i =>
    obtain ⟨⟨m, v⟩, hget, rfl⟩ := Option.map_eq_some_iff.mp h
    obtain ⟨n, hn, hpair⟩ := Option.map_eq_some_iff.mp hget
    obtain ⟨rfl, rfl⟩ := Prod.mk.inj hpair
    exact .got (load_mem hn)

/-- What an execution leaves: threads forget nothing, and stores keep their order. -/
structure Extends (w w' : Process Thread) : Prop where
  views : ∀ t, w.threads.view t ⊆ w'.threads.view t
  providers : ∀ p view, Known (w.providers p) view → Known (w'.providers p) view
  order : w.storage.Sublist w'.storage

/-- Whoever may get a provider knows, by the message it gets, that it is constructed. -/
structure Published (r : Registry) (w : Process Thread) : Prop where
  fallback : ∀ p ∈ r.fallback, ∀ view, 0 ∈ view → Known (w.providers p) view
  started : ∀ t, 0 ∈ w.threads.view t
  handed : ∀ m ∈ w.storage, 0 ∈ m.known ∧ ∀ p ∈ m.value, Known (w.providers p) m.known

variable {r : Registry} {w w' : Process Thread} {a : Action Thread}

omit [DecidableEq Thread] in
theorem Extends.refl (w : Process Thread) : Extends w w :=
  ⟨fun _ => Finset.Subset.refl _, fun _ _ h => h, List.Sublist.refl _⟩

omit [DecidableEq Thread] in
theorem Extends.trans {w'' : Process Thread} (h : Extends w w') (h' : Extends w' w'') :
    Extends w w'' :=
  ⟨fun t => (h.views t).trans (h'.views t), fun p view k => h'.providers p view (h.providers p view k),
    h.order.trans h'.order⟩

theorem extends_step (h : Step r w a w') : Extends w w' := by
  have grows := fun t learnt => Threads.view_grows w.threads t learnt
  cases h with
  | @constructed t p fresh =>
    refine ⟨grows t ∅, fun q view known => ?_, List.Sublist.refl _⟩
    have other : q ≠ p := by
      intro same
      obtain ⟨e, he, _⟩ := known
      rw [same, fresh] at he
      cases he
    change Known (Function.update w.providers p _ q) view
    rwa [Function.update_of_ne other]
  | @ignored t => exact ⟨grows t ∅, fun _ _ h => h, List.Sublist.refl _⟩
  | @exchanged t _ _ _ before after m _ here _ =>
    refine ⟨grows t m.known, fun _ _ h => h, ?_⟩
    rw [here]
    exact (List.Sublist.refl before).append ((List.sublist_cons_self _ after).cons_cons m)
  | @stored t _ _ _ before after _ _ here =>
    refine ⟨grows t ∅, fun _ _ h => h, ?_⟩
    rw [here]
    exact (List.Sublist.refl before).append (List.sublist_cons_self _ after)
  | @got t _ m _ => exact ⟨grows t m.known, fun _ _ h => h, List.Sublist.refl _⟩

omit [DecidableEq Thread] in
theorem published_initial (r : Registry) : Published r (initial Thread r) where
  fallback p hp view started := by
    have made : (initial Thread r).providers p = some 0 := if_pos hp
    exact ⟨0, made, started⟩
  started t := Finset.mem_singleton_self 0
  handed m hm := by
    obtain rfl := List.mem_singleton.mp hm
    refine ⟨Finset.mem_insert_self _ _, fun p hp => ?_⟩
    have made : (initial Thread r).providers p = some 0 := if_pos hp
    exact ⟨0, made, Finset.mem_insert_self _ _⟩

omit [DecidableEq Thread] in
theorem stored_known (h : Published r w) {t : Thread} {c : ProviderChange} {i : ℕ}
    (informed : Informed w (.change t c i)) {v : ProviderStorage} (hv : r.stored c = some v) :
    ∀ p ∈ v, Known (w.providers p) (w.threads.view t) := by
  intro p hp
  have started := h.started t
  cases c with
  | resetProvider =>
    rw [← Option.some.inj hv] at hp
    exact h.fallback p hp _ started
  | setProvider q =>
    cases q with
    | some q =>
      rw [← Option.some.inj hv] at hp
      rw [← Option.some.inj hp]
      exact informed
    | none =>
      simp only [Registry.stored] at hv
      split at hv
      · rw [← Option.some.inj hv] at hp
        cases hp
      · cases hv
      · rw [← Option.some.inj hv] at hp
        exact h.fallback p hp _ started

theorem published_step (h : Published r w) (informed : Informed w a) (hs : Step r w a w') :
    Published r w' := by
  have ext := extends_step hs
  have fallback : ∀ p ∈ r.fallback, ∀ view, 0 ∈ view → Known (w'.providers p) view :=
    fun p hp view hview => ext.providers p view (h.fallback p hp view hview)
  have started : ∀ t, 0 ∈ w'.threads.view t := fun t => ext.views t (h.started t)
  have kept : ∀ m ∈ w.storage, 0 ∈ m.known ∧ ∀ p ∈ m.value, Known (w'.providers p) m.known :=
    fun m hm => ⟨(h.handed m hm).1, fun p hp => ext.providers p _ ((h.handed m hm).2 p hp)⟩
  refine ⟨fallback, started, ?_⟩
  cases hs with
  | constructed _ | ignored _ | got _ => exact kept
  | @exchanged t c i v before after m hv here _ =>
    intro n hn
    simp only [List.mem_append, List.mem_cons] at hn
    have new : ∀ view, w.threads.view t ⊆ view → 0 ∈ view ∧ ∀ p ∈ v, Known (w.providers p) view :=
      fun view hview => ⟨hview (h.started t), fun p hp => (stored_known h informed hv p hp).mono hview⟩
    rcases hn with hn | rfl | rfl | hn
    · exact kept n (by simp [here, hn])
    · exact kept n (by simp [here])
    · exact new _ (Finset.subset_union_right.trans (Finset.subset_insert _ _))
    · exact kept n (by simp [here, hn])
  | @stored t c i v before after hv _ here =>
    intro n hn
    simp only [List.mem_append, List.mem_cons] at hn
    have own : w.threads.view t ⊆ insert w.threads.clock (w.threads.view t) :=
      Finset.subset_insert _ _
    rcases hn with hn | rfl | hn
    · exact kept n (by simp [here, hn])
    · exact ⟨own (h.started t), fun p hp => (stored_known h informed hv p hp).mono own⟩
    · exact kept n (by simp [here, hn])

theorem extends_run {as : List (Action Thread)} (h : run (next r) w as = some w') :
    Extends w w' :=
  relation_of_run (I := fun _ => True) Extends.refl (fun _ _ _ => Extends.trans)
    (fun _ _ _ _ _ => trivial) (fun _ _ _ _ h => extends_step (step_cases h)) trivial h

theorem published_run {as : List (Action Thread)} (informed : Meets (next r) Informed w as)
    (hw : Published r w) (h : run (next r) w as = some w') : Published r w' :=
  invariant_of_meets (fun _ _ _ hi hp hs => published_step hp hi (step_cases hs)) hw informed h

end

section
variable {Thread : Type}

def puts (r : Registry) : Action Thread → Option ProviderStorage
  | .change _ c _ => r.stored c
  | .construct _ _ | .get _ _ => none

def installed (r : Registry) (as : List (Action Thread)) : List ProviderStorage :=
  as.filterMap (puts r)

variable [DecidableEq Thread] {r : Registry} {w w' : Process Thread} {a : Action Thread}
  {as : List (Action Thread)}

theorem storage_step (h : Step r w a w') {m : Message ProviderStorage} (hm : m ∈ w'.storage) :
    m ∈ w.storage ∨ puts r a = some m.value := by
  cases h with
  | constructed _ | ignored _ | got _ => exact .inl hm
  | @exchanged t c i v before after n hv here _ =>
    simp only [List.mem_append, List.mem_cons] at hm
    rw [here]
    rcases hm with hm | rfl | rfl | hm
    · exact .inl (by simp [hm])
    · exact .inl (by simp)
    · exact .inr hv
    · exact .inl (by simp [hm])
  | @stored t c i v before after hv _ here =>
    simp only [List.mem_append, List.mem_cons] at hm
    rw [here]
    rcases hm with hm | rfl | hm
    · exact .inl (by simp [hm])
    · exact .inr hv
    · exact .inl (by simp [hm])

theorem storage_run (h : run (next r) w as = some w') {m : Message ProviderStorage}
    (hm : m ∈ w'.storage) : m ∈ w.storage ∨ m.value ∈ installed r as := by
  induction as generalizing w with
  | nil =>
    rw [run_nil, Option.some.injEq] at h
    exact .inl (h ▸ hm)
  | cons a as ih =>
    obtain ⟨u, hu, htail⟩ := (run_cons _).mp h
    rcases ih htail with before | later
    · rcases storage_step (step_cases hu) before with before | now
      · exact .inl before
      · exact .inr (List.mem_filterMap.mpr ⟨a, List.mem_cons_self, now⟩)
    · obtain ⟨b, hb, value⟩ := List.mem_filterMap.mp later
      exact .inr (List.mem_filterMap.mpr ⟨b, List.mem_cons_of_mem a hb, value⟩)

/-- A load by a thread that knows of a store returns that store's value or a later one. -/
theorem load_not_older {x : Atomic ProviderStorage} {view : View} {i : ℕ}
    {m n : Message ProviderStorage} (h : load x view i = some n) (hm : m ∈ x)
    (known : m.event ∈ view) : ∃ before after, x = before ++ n :: after ∧ m ∈ before ++ [n] := by
  obtain ⟨before, after, rfl, unseen⟩ := load_cases h
  refine ⟨before, after, rfl, ?_⟩
  have place : m ∈ before ++ [n] ++ after := by simpa using hm
  rcases List.mem_append.mp place with here | later
  · exact here
  · exact absurd known (unseen m later)

/-- Whatever threads install, remove and ask for providers: who gets one gets one that was put
in, or the fallback, and knows that it is constructed; and from then on neither this thread nor
any that learns of the same store gets one that was put in before. -/
theorem provider_publication (r : Registry) {as : List (Action Thread)} {w v : Process Thread}
    {t : Thread} {i : ℕ} {m : Message ProviderStorage}
    (informed : Meets (next r) Informed (initial Thread r) as)
    (h : run (next r) (initial Thread r) as = some w) (got : get w t i = some (m, v)) :
    m.value ∈ r.fallback :: installed r as ∧
    (∀ p ∈ r.active m.value, Known (v.providers p) (v.threads.view t)) ∧
    ∀ bs w', run (next r) v bs = some w' → m.event ∈ w'.threads.view t ∧
      ∀ u j n x, m.event ∈ w'.threads.view u → get w' u j = some (n, x) →
        ∃ before after, w'.storage = before ++ n :: after ∧ m ∈ before ++ [n] := by
  obtain ⟨m', hm, hpair⟩ := Option.map_eq_some_iff.mp got
  obtain ⟨rfl, rfl⟩ := Prod.mk.inj hpair
  have published := published_run informed (published_initial r) h
  have present := load_mem hm
  have learnt : m'.known ⊆ (w.threads.step t m'.known).view t := Threads.learnt_subset
  refine ⟨?_, fun p hp => ?_, fun bs w' later => ?_⟩
  · rcases storage_run h present with first | put
    · obtain rfl := List.mem_singleton.mp first
      exact List.mem_cons_self
    · exact List.mem_cons_of_mem _ put
  · obtain ⟨start, made⟩ := published.handed m' present
    cases hv : m'.value with
    | some q =>
      rw [hv] at hp
      exact (made p (hv ▸ hp)).mono learnt
    | none =>
      rw [hv] at hp
      exact (published.fallback p hp _ start).mono learnt
  · have ext := extends_run later
    refine ⟨ext.views t (learnt (Finset.mem_insert_self _ _)), fun u j n x known hget => ?_⟩
    obtain ⟨n', hn, hpair⟩ := Option.map_eq_some_iff.mp hget
    obtain ⟨rfl, rfl⟩ := Prod.mk.inj hpair
    exact load_not_older hn (ext.order.subset present) known

end

def installing : List (Action ℕ) := [.construct 1 7, .change 1 (.setProvider (some 7)) 1]

theorem provider_publication_installed :
    ∃ w v m, run (next (execution 4)) (initial ℕ (execution 4)) installing = some w ∧
      get w 2 1 = some (m, v) ∧ m.value = some 7 ∧ Known (v.providers 7) (v.threads.view 2) := by
  have installs : (run (next (execution 4)) (initial ℕ (execution 4)) installing).isSome := rfl
  have gets : (get (Option.get _ installs) 2 1).isSome := rfl
  have first := (Option.some_get installs).symm
  have second := (Option.some_get gets).symm
  obtain ⟨_, known, _⟩ :=
    provider_publication (execution 4) (by decide +kernel) first second
  exact ⟨_, _, _, first, second, rfl, known 7 rfl⟩

section
variable {Thread : Type} [DecidableEq Thread] {defaultProvider : ProviderId}

/-- All that is stored after the initial value is stored by exchanges, each of which follows the
one it reads. -/
structure Chained (w : Process Thread) : Prop where
  updates : ∀ m ∈ w.storage.tail, m.update = true
  returned : w.returned ++ [newest w.storage none] = w.storage.map Message.value

theorem chained_step {w w' : Process Thread} {a : Action Thread} (hw : Chained w)
    (h : Step (memory defaultProvider) w a w') :
    Chained w' ∧ w'.storage.map Message.value =
      w.storage.map Message.value ++ (puts (memory defaultProvider) a).toList := by
  cases h with
  | constructed _ | got _ => exact ⟨⟨hw.updates, hw.returned⟩, (List.append_nil _).symm⟩
  | @ignored t c i hv =>
    have nothing : (puts (memory defaultProvider) (.change t c i)).toList = [] :=
      congrArg Option.toList hv
    rw [nothing, List.append_nil]
    exact ⟨⟨hw.updates, hw.returned⟩, rfl⟩
  | stored _ plain _ => cases plain
  | @exchanged t c i v before after m hv here apart =>
    cases after with
    | cons n later =>
      have joined : n.update = true := hw.updates n (by rw [here]; cases before <;> simp)
      exact absurd (joined.symm.trans apart) (by decide)
    | nil =>
      have values := hw.returned
      rw [here, newest_append] at values
      refine ⟨⟨?_, ?_⟩, ?_⟩
      · intro n hn
        cases before with
        | nil =>
          obtain rfl := List.mem_singleton.mp hn
          rfl
        | cons b before =>
          have place : n ∈ before ++ [m] ∨ n = ⟨w.threads.clock, v, m.known ∪ w.threads.view t, true⟩ := by
            simpa [or_assoc] using hn
          rcases place with old | rfl
          · exact hw.updates n (by rw [here]; exact old)
          · rfl
      · have last := newest_append (before ++ [m])
          ⟨w.threads.clock, v, m.known ∪ w.threads.view t, true⟩ none
        simp only [List.append_assoc, List.singleton_append] at last
        change (w.returned ++ [m.value]) ++ [newest (before ++ [m, _]) none] = _
        rw [values, last]
        simp
      · simp [here, puts, hv]

theorem chained_run {w w' : Process Thread} {as : List (Action Thread)} (hw : Chained w)
    (h : run (next (memory defaultProvider)) w as = some w') :
    Chained w' ∧ w'.storage.map Message.value =
      w.storage.map Message.value ++ installed (memory defaultProvider) as := by
  induction as generalizing w with
  | nil =>
    rw [run_nil, Option.some.injEq] at h
    subst h
    exact ⟨hw, (List.append_nil _).symm⟩
  | cons a as ih =>
    obtain ⟨u, hu, htail⟩ := (run_cons _).mp h
    obtain ⟨chained, grown⟩ := chained_step hw (step_cases hu)
    obtain ⟨final, values⟩ := ih chained htail
    refine ⟨final, values.trans ?_⟩
    have first : installed (memory defaultProvider) (a :: as) =
        (puts (memory defaultProvider) a).toList ++ installed (memory defaultProvider) as := by
      unfold installed
      cases hput : puts (memory defaultProvider) a <;> simp [hput]
    rw [grown, first, List.append_assoc]

/-- However threads exchange the memory providers: what the calls return, and last the provider
that is active, are the default provider and then all that were put in, each of them once. -/
theorem memory_providers_handed_back (defaultProvider : ProviderId) {as : List (Action Thread)}
    {w : Process Thread}
    (h : run (next (memory defaultProvider)) (initial Thread (memory defaultProvider)) as = some w) :
    w.returned ++ [newest w.storage none] =
      some defaultProvider :: installed (memory defaultProvider) as := by
  have start : Chained (initial Thread (memory defaultProvider)) :=
    ⟨fun m hm => absurd hm List.not_mem_nil, rfl⟩
  obtain ⟨chained, values⟩ := chained_run start h
  exact chained.returned.trans values

theorem memory_providers_handed_back_exchanged :
    ∃ w, run (next (memory 4)) (initial ℕ (memory 4))
        [.change 1 (.setProvider (some 7)) 0, .change 2 (.setProvider none) 1,
          .change 2 (.setProvider (some 8)) 2] = some w ∧
      w.returned ++ [newest w.storage none] = [some 4, some 7, some 4, some 8] := by
  have exchanges : (run (next (memory 4)) (initial ℕ (memory 4))
      [.change 1 (.setProvider (some 7)) 0, .change 2 (.setProvider none) 1,
        .change 2 (.setProvider (some 8)) 2]).isSome := rfl
  have reached := (Option.some_get exchanges).symm
  exact ⟨_, reached, memory_providers_handed_back 4 reached⟩

end

end ESPressioSystem.ProviderPublication
