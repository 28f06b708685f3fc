import ESPressioSystem.MemoryWorld

set_option autoImplicit false

/-!
# When a memory provider has received its last call
-/
namespace ESPressioSystem.ProviderRetirement
open Transition Ledger MemoryProvider MemoryAllocator MemoryWorld

def receiver : ProviderCall → ProviderId
  | .allocate r _ => r.provider
  | .deallocate b => b.request.provider

def callsOf (p : ProviderId) (calls : List ProviderCall) : List ProviderCall :=
  calls.filter fun c => receiver c == p

def installed : ProviderChange → ProviderId
  | .setProvider (some p) => p
  | .setProvider none | .resetProvider => defaultProvider

def Installs (p : ProviderId) (changes : List ProviderChange) : Prop := ∃ c ∈ changes, installed c = p

/-- The provider is not the active one, and has received no further call. -/
structure Spared (p : ProviderId) (m m' : Memory) : Prop where
  inactive : getProvider m'.slot ≠ p
  calls : callsOf p m'.calls = callsOf p m.calls

section
variable {p : ProviderId} {m m' m'' : Memory}

theorem getProvider_apply (slot : ProviderSlot) (c : ProviderChange) :
    getProvider (c.apply slot) = installed c := by
  cases c with
  | resetProvider => rfl
  | setProvider q => cases q <;> rfl

theorem Spared.trans (h : Spared p m m') (h' : Spared p m' m'') : Spared p m m'' :=
  ⟨h'.inactive, h'.calls.trans h.calls⟩

theorem spared_change (inactive : getProvider m.slot ≠ p) {changes : List ProviderChange}
    (never : ¬ Installs p changes) : Spared p m (m.change changes) := by
  refine ⟨?_, rfl⟩
  change getProvider (applyAll m.slot changes) ≠ p
  induction changes using List.reverseRecOn with
  | nil => exact inactive
  | append_singleton changes c _ =>
    rw [applyAll_append]
    change getProvider (c.apply (applyAll m.slot changes)) ≠ p
    rw [getProvider_apply]
    exact fun same => never ⟨c, List.mem_append_right _ (List.mem_singleton_self c), same⟩

theorem spared_install (inactive : getProvider m.slot ≠ p) {c : ProviderChange}
    (other : installed c ≠ p) : Spared p m (m.change [c]) := by
  refine spared_change inactive ?_
  rintro ⟨d, hd, same⟩
  rw [List.mem_singleton.mp hd] at same
  exact other same

theorem callsOf_append (call : ProviderCall) (h : receiver call ≠ p) (calls : List ProviderCall) :
    callsOf p (calls ++ [call]) = callsOf p calls := by
  simp [callsOf, List.filter_append, h]

theorem spared_allocate (inactive : getProvider m.slot ≠ p) {r : Request} (other : r.provider ≠ p)
    (answer : Answer) : Spared p m (m.allocate r answer) :=
  ⟨inactive, callsOf_append (.allocate r answer) other m.calls⟩

theorem spared_deallocate (inactive : getProvider m.slot ≠ p) {b : Block}
    (other : b.request.provider ≠ p) : Spared p m (m.deallocate b) :=
  ⟨inactive, callsOf_append (.deallocate b) other m.calls⟩

end

section
variable {sizeMax : ℕ} {T : ElementType sizeMax} {P : MemoryPolicy} {p : ProviderId} {m : Memory}

theorem effectiveProvider_ne {a : Allocator T P} (free : a.provider ≠ some p) {slot : ProviderSlot}
    (inactive : getProvider slot ≠ p) : a.effectiveProvider slot ≠ p := by
  cases ha : a.provider with
  | none => rwa [effectiveProvider_unbound ha]
  | some q =>
    rw [effectiveProvider_bound ha]
    exact fun same => free (ha.trans (congrArg some same))

theorem allocate_spared {a : Allocator T P} (inactive : getProvider m.slot ≠ p)
    (free : a.provider ≠ some p) {between : List ProviderChange} (never : ¬ Installs p between)
    (count : ℕ) (answer : Answer) :
    Spared p m (a.allocate count between answer m).memory ∧
      (a.allocate count between answer m).allocator.provider ≠ some p := by
  have other := effectiveProvider_ne free inactive
  have bound : (a.bindProvider m.slot).provider ≠ some p := by
    rw [bindProvider_provider]
    exact fun same => other (Option.some.inj same)
  have called : ∀ answer, Spared p m
      ((m.change between).allocate (request T P (a.effectiveProvider m.slot) count) answer) := by
    intro answer
    have changed := spared_change inactive never
    exact changed.trans (spared_allocate changed.inactive other answer)
  by_cases hcount : count > sizeMax / T.size
  · rw [allocate_oversized hcount]
    exact ⟨⟨inactive, rfl⟩, free⟩
  · cases answer with
    | pointer address =>
      rw [allocate_pointer hcount]
      exact ⟨called _, bound⟩
    | exception =>
      rw [allocate_exception hcount]
      exact ⟨called _, bound⟩

theorem deallocate_spared {a : Allocator T P} (inactive : getProvider m.slot ≠ p)
    (free : a.provider ≠ some p) (pointer count : ℕ) :
    Spared p m (a.deallocate pointer count m) := by
  by_cases hpointer : pointer = 0
  · subst hpointer
    rw [deallocate_null]
    exact ⟨inactive, rfl⟩
  · rw [deallocate_pointer hpointer]
    exact spared_deallocate inactive (effectiveProvider_ne free inactive)

end

section
open ContainerStorage
variable {sizeMax : ℕ} {T : ElementType sizeMax} {P : MemoryPolicy} {p : ProviderId} {m : Memory}

/-- Making room, changing elements and giving room back, none of it with the provider. -/
theorem refill_spared {c : Container T P} {f : Fill} (inactive : getProvider m.slot ≠ p)
    (free : c.allocator.provider ≠ some p) (never : ¬ Installs p f.between)
    (never' : ¬ Installs p f.during) :
    Spared p m (c.refill f m).memory ∧ (c.refill f m).container.allocator.provider ≠ some p := by
  obtain ⟨r, h⟩ : ∃ r, c.allocator.allocate f.count f.between f.answer m = r := ⟨_, rfl⟩
  obtain ⟨called, bound⟩ := allocate_spared inactive free never f.count f.answer
  rw [h] at called bound
  have filled := called.trans (spared_change called.inactive never')
  cases hr : r.result with
  | error e =>
    rw [refill_error h hr]
    exact ⟨called, bound⟩
  | ok pointer =>
    cases hf : f.completes with
    | true =>
      rw [refill_completed h hr hf]
      exact ⟨filled.trans (deallocate_spared filled.inactive bound _ _), bound⟩
    | false =>
      rw [refill_undone h hr hf]
      exact ⟨filled.trans (deallocate_spared filled.inactive bound _ _), bound⟩

variable {ι : Type} [DecidableEq ι]

def Free (p : ProviderId) (containers : ι → Option (Container T P)) : Prop :=
  ∀ i c, containers i = some c → c.allocator.provider ≠ some p

/-- The action neither installs the provider nor constructs a container bound to it. -/
def Innocent (p : ProviderId) : ContainerStorage.Action ι → Prop
  | .construct _ provider => provider ≠ some p
  | .copyConstruct _ _ fill | .copyAssign _ _ fill =>
    ∀ f ∈ fill, ¬ Installs p f.between ∧ ¬ Installs p f.during
  | .refill _ f => ¬ Installs p f.between ∧ ¬ Installs p f.during
  | .change c => installed c ≠ p
  | .destroy _ | .moveConstruct _ _ | .moveAssign _ _ | .swap _ _ | .release _ => True

theorem free_update {containers : ι → Option (Container T P)} (h : Free p containers) {i : ι}
    {c : Option (Container T P)} (hc : ∀ d, c = some d → d.allocator.provider ≠ some p) :
    Free p (Function.update containers i c) :=
  (Function.forall_update_iff containers fun _ e =>
    ∀ d, e = some d → d.allocator.provider ≠ some p).mpr ⟨hc, fun j _ => h j⟩

theorem free_vacated {containers : ι → Option (Container T P)} (h : Free p containers) (i : ι) :
    Free p (Function.update containers i none) :=
  free_update h nofun

theorem free_cell {containers : ι → Option (Container T P)} (h : Free p containers) {i : ι}
    {c : Container T P} (hc : c.allocator.provider ≠ some p) :
    Free p (Function.update containers i (some c)) :=
  free_update h fun _ hd => Option.some.inj hd ▸ hc

variable {s t : Family T P ι}

theorem take_free (h : Free p s.containers) {i j : ι} {c : Container T P}
    (hc : c.allocator.provider ≠ some p) : Free p (s.take i j c).containers :=
  free_cell (free_cell (c := c.emptied) h hc) hc

theorem release_spared (inactive : getProvider s.memory.slot ≠ p) (h : Free p s.containers) {i : ι}
    (ht : release s i = some t) : Spared p s.memory t.memory ∧ Free p t.containers := by
  obtain ⟨c, hc, rfl⟩ := Option.map_eq_some_iff.mp ht
  exact ⟨deallocate_spared inactive (h i c hc) _ _, free_cell h (h i c hc)⟩

theorem refilled_spared (inactive : getProvider s.memory.slot ≠ p) (h : Free p s.containers) {i : ι}
    {f : Fill} (never : ¬ Installs p f.between ∧ ¬ Installs p f.during)
    (ht : refill s i f = some t) : Spared p s.memory t.memory ∧ Free p t.containers := by
  obtain ⟨c, hc, rfl⟩ := Option.map_eq_some_iff.mp ht
  obtain ⟨called, bound⟩ := refill_spared inactive (h i c hc) never.1 never.2
  exact ⟨called, free_cell h bound⟩

theorem copyConstruct_spared (inactive : getProvider s.memory.slot ≠ p) (h : Free p s.containers)
    {i j : ι} {fill : Option Fill} (never : ∀ f ∈ fill, ¬ Installs p f.between ∧ ¬ Installs p f.during)
    (ht : copyConstruct s i j fill = some t) : Spared p s.memory t.memory ∧ Free p t.containers := by
  obtain ⟨c, hc, hcopy⟩ := Option.bind_eq_some_iff.mp ht
  have free := h i c hc
  cases hj : s.containers j with
  | some d => simp [hj] at hcopy
  | none =>
    cases fill with
    | none =>
      simp only [hj, Option.some.injEq] at hcopy
      subst hcopy
      exact ⟨⟨inactive, rfl⟩, free_cell (c := c.emptied) h free⟩
    | some f =>
      simp only [hj, Option.some.injEq] at hcopy
      subst hcopy
      obtain ⟨never, never'⟩ := never f rfl
      obtain ⟨called, bound⟩ := refill_spared (c := c.emptied) inactive free never never'
      refine ⟨called, free_update h fun d hd => ?_⟩
      split at hd
      · cases hd
      · exact Option.some.inj hd ▸ bound

theorem family_spared {a : ContainerStorage.Action ι} (inactive : getProvider s.memory.slot ≠ p)
    (h : Free p s.containers) (innocent : Innocent p a) (ht : ContainerStorage.next s a = some t) :
    Spared p s.memory t.memory ∧ Free p t.containers := by
  have still : Spared p s.memory s.memory := ⟨inactive, rfl⟩
  cases a with
  | construct i provider =>
    simp only [ContainerStorage.next, construct] at ht
    split at ht
    · cases ht
    · rw [← Option.some.inj ht]
      exact ⟨still, free_cell h innocent⟩
  | destroy i =>
    obtain ⟨c, hc, rfl⟩ := Option.map_eq_some_iff.mp ht
    exact ⟨deallocate_spared inactive (h i c hc) _ _, free_vacated h i⟩
  | copyConstruct i j fill => exact copyConstruct_spared inactive h innocent ht
  | moveConstruct i j =>
    obtain ⟨c, hc, hrest⟩ := Option.bind_eq_some_iff.mp ht
    split at hrest
    · cases hrest
    · rw [← Option.some.inj hrest]
      exact ⟨still, take_free h (h i c hc)⟩
  | copyAssign i j fill =>
    obtain ⟨c, _, hrest⟩ := Option.bind_eq_some_iff.mp ht
    cases fill with
    | none =>
      obtain ⟨d, _, rfl⟩ := Option.map_eq_some_iff.mp hrest
      exact ⟨still, h⟩
    | some f => exact refilled_spared inactive h (innocent f rfl) hrest
  | moveAssign i j =>
    obtain ⟨u, hu, hrest⟩ := Option.bind_eq_some_iff.mp ht
    obtain ⟨called, free⟩ := release_spared inactive h hu
    obtain ⟨c, hc, rfl⟩ := Option.map_eq_some_iff.mp hrest
    exact ⟨called, take_free free (free i c hc)⟩
  | swap i j =>
    obtain ⟨c, hc, hrest⟩ := Option.bind_eq_some_iff.mp ht
    obtain ⟨d, hd, rfl⟩ := Option.map_eq_some_iff.mp hrest
    exact ⟨still, free_cell (free_cell h (h j d hd)) (h i c hc)⟩
  | refill i f => exact refilled_spared inactive h innocent ht
  | release i => exact release_spared inactive h ht
  | change c =>
    rw [← Option.some.inj ht]
    exact ⟨spared_install inactive innocent, h⟩

end

section
open UniqueOwnership
variable {sizeMax : ℕ} {p : ProviderId} {ι : Type}

def Frame.Without (p : ProviderId) : Frame sizeMax ι → Prop
  | .constructing c => c.provider ≠ p
  | .destroying d => d.origin ≠ .passed p

/-- Neither a deleter nor an operation under way has the provider. -/
structure Unheld (p : ProviderId) (s : State sizeMax ι) : Prop where
  deleters : ∀ i, (s.deleter i).bind Deleter.provider ≠ some p
  stack : ∀ f ∈ s.stack, Frame.Without p f

theorem destruction_provider {q : OwningPointer sizeMax} {d : Destruction sizeMax}
    (h : q.destruction = some d) : q.deleter.provider = some d.provider := by
  unfold OwningPointer.destruction at h
  split at h
  · cases h
  · cases hq : q.deleter with
    | object T P provider =>
      rw [hq] at h
      rw [← Option.some.inj h]
      rfl
    | polymorphic base provider destroy =>
      rw [hq] at h
      cases provider with
      | none => cases h
      | some provider =>
        cases destroy with
        | none => cases h
        | some destroy =>
          rw [← Option.some.inj h]
          rfl

theorem result_provider (maker : Maker sizeMax) (provider : ProviderId) (storage : ℕ) :
    (maker.result provider storage).deleter.provider = some provider := by
  cases maker <;> rfl

theorem Unheld.cell {s : State sizeMax ι} (h : Unheld p s) (q : OwningPointer sizeMax) {i : ι}
    (hq : s.cells i = some q) : q.deleter.provider ≠ some p := by
  have free := h.deleters i
  rwa [deleter_cell hq, Option.bind_some] at free

variable [DecidableEq ι] {s t : State sizeMax ι}

theorem unheld_put (h : Unheld p s) {i : ι} {q : Option (OwningPointer sizeMax)}
    (hq : ∀ r, q = some r → r.deleter.provider ≠ some p) : Unheld p (s.put i q) := by
  refine ⟨fun k => ?_, h.stack⟩
  rw [deleter_put]
  by_cases hk : k = i
  · subst hk
    rw [Function.update_self]
    cases q with
    | none => exact fun h => by cases h
    | some r => exact hq r rfl
  · rw [Function.update_of_ne hk]
    exact h.deleters k

theorem unheld_cell (h : Unheld p s) (i : ι) (q : OwningPointer sizeMax)
    (hq : q.deleter.provider ≠ some p) : Unheld p (s.put i (some q)) :=
  unheld_put h fun _ hr => Option.some.inj hr ▸ hq

theorem unheld_movePointer (h : Unheld p s) {i j : ι} {q r : OwningPointer sizeMax}
    (hq : s.cells i = some q) (hr : s.cells j = some r) : Unheld p (s.movePointer i j q r) := by
  have first := unheld_cell h i q.released (h.cell q hq)
  exact unheld_cell first j { r with pointer := q.pointer } (h.cell r hr)

theorem unheld_moveDeleter (h : Unheld p s) (i j : ι) : Unheld p (s.moveDeleter i j) := by
  unfold State.moveDeleter
  split
  · rename_i q r hq hr
    exact unheld_cell h j { r with deleter := q.deleter } (h.cell q hq)
  · exact h

omit [DecidableEq ι] in
theorem unheld_destroy (h : Unheld p s) (d : Destruction sizeMax) {origin : Origin ι}
    (ho : origin ≠ .passed p) (assignment : Option (ι × ι)) :
    Unheld p (s.destroy d origin assignment) :=
  ⟨h.deleters, List.forall_mem_cons.mpr ⟨ho, h.stack⟩⟩

omit [DecidableEq ι] in
theorem passed_ne {q : OwningPointer sizeMax} {d : Destruction sizeMax}
    (hq : q.deleter.provider ≠ some p) (hd : q.destruction = some d) :
    (Origin.passed d.provider : Origin ι) ≠ .passed p := by
  intro same
  rw [destruction_provider hd] at hq
  cases same
  exact hq rfl

omit [DecidableEq ι] in
theorem origin_ne {q : OwningPointer sizeMax} {d : Destruction sizeMax}
    (hq : q.deleter.provider ≠ some p) (hd : q.destruction = some d) (i : ι) :
    q.deleter.origin i d.provider ≠ .passed p := by
  cases he : q.deleter with
  | object T P provider => exact fun same => by cases same
  | polymorphic base provider destroy => exact passed_ne hq hd

omit [DecidableEq ι] in
theorem unheld_tail (h : Unheld p s) {f : Frame sizeMax ι} {stack : List (Frame sizeMax ι)}
    (hstack : s.stack = f :: stack) : Frame.Without p f ∧ ∀ g ∈ stack, Frame.Without p g := by
  have all := h.stack
  rw [hstack] at all
  exact List.forall_mem_cons.mp all

omit [DecidableEq ι] in
theorem unheld_origin (h : Unheld p s) {origin : Origin ι} (ho : origin ≠ .passed p)
    {provider : ProviderId} (found : origin.provider s.deleter = some provider) : provider ≠ p := by
  rintro rfl
  cases origin with
  | passed q =>
    cases found
    exact ho rfl
  | member i => exact h.deleters i found

/-- The action does not install the provider. -/
def Leaves (p : ProviderId) : UniqueOwnership.Action sizeMax ι → Prop
  | .make _ between _ => ¬ Installs p between
  | .change c => installed c ≠ p
  | .null _ _ | .constructed _ | .constructorThrew | .moveConstruct _ _ | .moveAssign _ _
  | .swap _ _ | .reset _ | .drop _ | .destructed => True

omit [DecidableEq ι] in
theorem make_spared (inactive : getProvider s.memory.slot ≠ p) (h : Unheld p s)
    {maker : Maker sizeMax} {between : List ProviderChange} (never : ¬ Installs p between)
    (answer : Answer) :
    Spared p s.memory (make s maker between answer).memory ∧
      Unheld p (make s maker between answer) := by
  have changed := spared_change inactive never
  have called := changed.trans (spared_allocate changed.inactive
    (r := objectRequest maker.type maker.policy (getProvider s.memory.slot)) inactive answer)
  cases answer with
  | exception => exact ⟨called, h.deleters, h.stack⟩
  | pointer address => exact ⟨called, h.deleters, List.forall_mem_cons.mpr ⟨inactive, h.stack⟩⟩

theorem assign_spared (inactive : getProvider s.memory.slot ≠ p) (h : Unheld p s) {i j : ι}
    (ht : moveAssign s i j = some t) : Spared p s.memory t.memory ∧ Unheld p t := by
  have still : Spared p s.memory s.memory := ⟨inactive, rfl⟩
  obtain ⟨q, hq, hrest⟩ := Option.bind_eq_some_iff.mp ht
  obtain ⟨r, hr, hassign⟩ := Option.bind_eq_some_iff.mp hrest
  split at hassign
  · rw [← Option.some.inj hassign]
    exact ⟨still, h⟩
  · split at hassign
    · have moved := unheld_movePointer h hq hr
      cases hd : r.destruction with
      | none =>
        simp only [hd, Option.some.injEq] at hassign
        rw [← hassign]
        refine ⟨?_, unheld_moveDeleter moved i j⟩
        unfold State.moveDeleter
        split <;> exact still
      | some d =>
        simp only [hd, Option.some.injEq] at hassign
        rw [← hassign]
        exact ⟨still, unheld_destroy moved d (origin_ne (h.cell r hr) hd j) _⟩
    · cases hassign

theorem destructed_spared (inactive : getProvider s.memory.slot ≠ p) (h : Unheld p s)
    (ht : destructed s = some t) : Spared p s.memory t.memory ∧ Unheld p t := by
  unfold destructed at ht
  split at ht
  · rename_i d stack hstack
    obtain ⟨provider, found, rfl⟩ := Option.map_eq_some_iff.mp ht
    obtain ⟨without, rest⟩ := unheld_tail h hstack
    have other := unheld_origin h without found
    have spared := spared_deallocate inactive
      (b := ⟨objectRequest d.object.type d.policy provider, d.object.address⟩) other
    cases hd : d.assignment with
    | none => exact ⟨spared, h.deleters, rest⟩
    | some move =>
      have popped : Unheld p { s with
          memory := s.memory.deallocate
            ⟨objectRequest d.object.type d.policy provider, d.object.address⟩
          stack := stack } := ⟨h.deleters, rest⟩
      refine ⟨?_, unheld_moveDeleter popped move.1 move.2⟩
      simp only [State.moveDeleter]
      split <;> exact spared
  · cases ht

theorem pointers_spared {a : UniqueOwnership.Action sizeMax ι}
    (inactive : getProvider s.memory.slot ≠ p) (h : Unheld p s) (leaves : Leaves p a)
    (ht : UniqueOwnership.next s a = some t) : Spared p s.memory t.memory ∧ Unheld p t := by
  have still : Spared p s.memory s.memory := ⟨inactive, rfl⟩
  cases a with
  | null i type =>
    simp only [UniqueOwnership.next, null] at ht
    split at ht
    · cases ht
    · rw [← Option.some.inj ht]
      refine ⟨still, unheld_cell h i _ ?_⟩
      cases type with
      | unique T P => exact fun same => inactive (Option.some.inj same)
      | polymorphic base => exact fun same => by cases same
  | make maker between answer =>
    rw [← Option.some.inj ht]
    exact make_spared inactive h leaves answer
  | constructed i =>
    simp only [UniqueOwnership.next, constructed] at ht
    split at ht
    · rename_i c stack hstack hcell
      rw [← Option.some.inj ht]
      obtain ⟨other, rest⟩ := unheld_tail h hstack
      have placed := unheld_cell h i (c.maker.result c.provider c.storage) (by
        rw [result_provider]
        exact fun same => other (Option.some.inj same))
      exact ⟨still, placed.deleters, rest⟩
    · cases ht
  | constructorThrew =>
    simp only [UniqueOwnership.next, constructorThrew] at ht
    split at ht
    · rename_i c stack hstack
      rw [← Option.some.inj ht]
      obtain ⟨other, rest⟩ := unheld_tail h hstack
      exact ⟨spared_deallocate inactive other, h.deleters, rest⟩
    · cases ht
  | moveConstruct i j =>
    obtain ⟨q, hq, hrest⟩ := Option.bind_eq_some_iff.mp ht
    split at hrest
    · cases hrest
    · rw [← Option.some.inj hrest]
      have first := unheld_cell h i q.released (h.cell q hq)
      exact ⟨still, unheld_cell first j q (h.cell q hq)⟩
  | moveAssign i j => exact assign_spared inactive h ht
  | swap i j =>
    obtain ⟨q, hq, hrest⟩ := Option.bind_eq_some_iff.mp ht
    obtain ⟨r, hr, hswap⟩ := Option.bind_eq_some_iff.mp hrest
    split at hswap
    · rw [← Option.some.inj hswap]
      exact ⟨still, unheld_cell (unheld_cell h i r (h.cell r hr)) j q (h.cell q hq)⟩
    · cases hswap
  | reset i =>
    obtain ⟨q, hq, rfl⟩ := Option.map_eq_some_iff.mp ht
    have released := unheld_cell h i q.released (h.cell q hq)
    cases hd : q.destruction with
    | none => exact ⟨still, released⟩
    | some d => exact ⟨still, unheld_destroy released d (origin_ne (h.cell q hq) hd i) none⟩
  | drop i =>
    simp only [UniqueOwnership.next, drop] at ht
    split at ht
    · cases ht
    · obtain ⟨q, hq, rfl⟩ := Option.map_eq_some_iff.mp ht
      have vacated := unheld_put (i := i) (q := none) h fun _ hr => by cases hr
      cases hd : q.destruction with
      | none => exact ⟨still, vacated⟩
      | some d => exact ⟨still, unheld_destroy vacated d (passed_ne (h.cell q hq) hd) none⟩
  | destructed => exact destructed_spared inactive h ht
  | change c =>
    rw [← Option.some.inj ht]
    exact ⟨spared_install inactive leaves, h.deleters, h.stack⟩

omit [DecidableEq ι] in
theorem unheld_block (h : Unheld p s) {f : Frame sizeMax ι} (without : Frame.Without p f)
    (found : ∀ d, f = .destroying d → (d.origin.provider s.deleter).isSome) :
    (f.block s.deleter).request.provider ≠ p := by
  cases f with
  | constructing c => exact without
  | destroying d =>
    obtain ⟨provider, hprovider⟩ := Option.isSome_iff_exists.mp (found d rfl)
    have other := unheld_origin h without hprovider
    simp only [Frame.block, hprovider, Option.getD_some]
    exact other

theorem unheld_owned (h : Unheld p s) {i : ι} {q : OwningPointer sizeMax}
    (hq : s.owned i = some q) : q.deleter.provider ≠ some p := by
  obtain ⟨r, hr, rfl⟩ := Option.map_eq_some_iff.mp hq
  cases hd : s.awaited i with
  | none =>
    rw [pair_unawaited hd]
    exact h.cell r hr
  | some d =>
    obtain ⟨k, _, hk⟩ := Option.bind_eq_some_iff.mp hd
    have free := h.deleters k
    rw [hk, Option.bind_some] at free
    simpa only [State.pair, hd, Option.getD_some] using free

end

/-- What tells that a client has done with a provider, and which of its actions do not bring that
provider back. -/
structure Retiring (C : Client) where
  free : ProviderId → C.State → Prop
  innocent : ProviderId → C.Action → Prop
  spares : ∀ {p m m' s s' a}, getProvider m.slot ≠ p → free p s → innocent p a →
    C.step m s a = some (m', s') → Spared p m m' ∧ free p s'
  owes : ∀ {p calls s}, C.Invariant calls s → free p s → ∀ b ∈ C.owned s, b.request.provider ≠ p

section
variable {sizeMax : ℕ} {ι : Type} [DecidableEq ι] [Fintype ι]

def containersRetiring (T : ElementType sizeMax) (P : MemoryPolicy) (ι : Type) [DecidableEq ι]
    [Fintype ι] : Retiring (containers T P ι) where
  free := Free
  innocent := Innocent
  spares := by
    intro p m m' s s' a inactive free innocent h
    obtain ⟨t, ht, same⟩ := Option.map_eq_some_iff.mp h
    obtain ⟨rfl, rfl⟩ := Prod.mk.inj same
    exact family_spared (s := ⟨m, s⟩) inactive free innocent ht
  owes := by
    intro p calls s hs free b hb
    obtain ⟨i, _, hi⟩ := Multiset.mem_sum.mp hb
    cases hc : s i with
    | none =>
      rw [hc] at hi
      exact absurd hi (Multiset.notMem_zero b)
    | some c =>
      rw [hc, Option.elim_some, ContainerStorage.Container.blocks, storageBlocks] at hi
      split at hi
      · exact absurd hi (Multiset.notMem_zero b)
      · rename_i hpointer
        rw [Multiset.mem_singleton.mp hi]
        have bound := (hs.sound i c hc).bound hpointer
        exact fun same => free i c hc (bound.trans (congrArg some same))

def owningPointersRetiring (sizeMax : ℕ) (ι : Type) [DecidableEq ι] [Fintype ι] :
    Retiring (owningPointers sizeMax ι) where
  free p s := Unheld p (s.among ⟨none, []⟩)
  innocent := Leaves
  spares := by
    intro p m m' s s' a inactive free leaves h
    obtain ⟨t, ht, same⟩ := Option.map_eq_some_iff.mp h
    obtain ⟨rfl, rfl⟩ := Prod.mk.inj same
    have unheld : Unheld p (s.among m) := ⟨free.deleters, free.stack⟩
    obtain ⟨spared, kept⟩ := pointers_spared inactive unheld leaves ht
    exact ⟨spared, kept.deleters, kept.stack⟩
  owes := by
    intro p calls s hs free b hb
    rcases Multiset.mem_add.mp hb with hb | hb
    · obtain ⟨i, _, hi⟩ := Multiset.mem_sum.mp hb
      cases hq : (s.among ⟨none, []⟩).owned i with
      | none =>
        rw [UniqueOwnership.held, hq] at hi
        exact absurd hi (Multiset.notMem_zero b)
      | some q =>
        rw [UniqueOwnership.held, hq, Option.elim_some, UniqueOwnership.OwningPointer.holding] at hi
        cases hd : q.destruction with
        | none =>
          rw [hd] at hi
          exact absurd hi (Multiset.notMem_zero b)
        | some d =>
          rw [hd] at hi
          rw [Multiset.mem_singleton.mp hi]
          have other := unheld_owned free hq
          rw [destruction_provider hd] at other
          exact fun same => other (congrArg some same)
    · obtain ⟨f, hf, rfl⟩ := List.mem_map.mp (Multiset.mem_coe.mp hb)
      exact unheld_block free (free.stack f hf) fun d hd => hs.found d (hd ▸ hf)

end

section
variable {κ : Type} [DecidableEq κ] {C : κ → Client}

def NeverInstalls (R : ∀ k, Retiring (C k)) (p : ProviderId) (_ : World C) : MemoryWorld.Action C → Prop
  | .act k a => (R k).innocent p a
  | .change c => installed c ≠ p

structure Retired (R : ∀ k, Retiring (C k)) (p : ProviderId) (w : World C) : Prop where
  inactive : getProvider w.memory.slot ≠ p
  free : ∀ k, (R k).free p (w.state k)

theorem retired_step {R : ∀ k, Retiring (C k)} {p : ProviderId} {w w' : World C}
    {a : MemoryWorld.Action C} (never : NeverInstalls R p w a) (hw : Retired R p w)
    (h : next w a = some w') : Retired R p w' ∧ callsOf p w'.memory.calls = callsOf p w.memory.calls := by
  cases a with
  | change c =>
    rw [← Option.some.inj h]
    refine ⟨⟨?_, hw.free⟩, rfl⟩
    change getProvider (c.apply w.memory.slot) ≠ p
    rw [getProvider_apply]
    exact never
  | act k a =>
    obtain ⟨⟨m, t⟩, taken, rfl⟩ := Option.map_eq_some_iff.mp h
    obtain ⟨spared, free⟩ := (R k).spares hw.inactive (hw.free k) never taken
    refine ⟨⟨spared.inactive, ?_⟩, spared.calls⟩
    exact (Function.forall_update_iff w.state fun j s => (R j).free p s).mpr
      ⟨free, fun j _ => hw.free j⟩

def retiringPair : ∀ k, Retiring (pairOfClients k)
  | false => containersRetiring wordType .externalPreferred Bool
  | true => owningPointersRetiring 0xFFFFFFFF Unit

/-- The container of provider 1 grows while provider 3 comes. -/
def growing : List (MemoryWorld.Action pairOfClients) :=
  [.act false (ContainerStorage.Action.refill true ⟨16, [.setProvider (some 3)], .pointer 256, [], true⟩)]

theorem growing_completes :
    (run next (Option.get _ interleaved_completes) growing).isSome := rfl

theorem growing_retired : Retired retiringPair 2 (Option.get _ interleaved_completes) := by
  refine ⟨by decide, fun k => ?_⟩
  cases k with
  | false =>
    intro i c hc
    cases i <;> · cases hc; decide
  | true =>
    refine ⟨fun i same => ?_, fun _ hf => ?_⟩
    · cases i
      cases same
    · cases hf

end

end ESPressioSystem.ProviderRetirement
