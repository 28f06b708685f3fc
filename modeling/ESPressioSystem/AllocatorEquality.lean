import ESPressioSystem.MemoryAllocator

set_option autoImplicit false

/-!
# How long allocators that compare equal stay interchangeable
-/
namespace ESPressioSystem.AllocatorEquality
open Transition MemoryProvider MemoryAllocator

section
variable {sizeMax : ℕ} {P : MemoryPolicy}

structure AnyAllocator (sizeMax : ℕ) (P : MemoryPolicy) where
  element : ElementType sizeMax
  allocator : Allocator element P

/-- A block that was supplied through an allocator and has not been released. -/
structure Supply (sizeMax : ℕ) where
  through : ℕ
  element : ElementType sizeMax
  count : ℕ
  provider : ProviderId
  pointer : ℕ
  pointer_ne : pointer ≠ 0
  deriving DecidableEq

def Supply.block (r : Supply sizeMax) (P : MemoryPolicy) : Block :=
  ⟨request r.element P r.provider r.count, r.pointer⟩

/-- The allocators of one policy, numbered as they were made. -/
structure Pool (sizeMax : ℕ) (P : MemoryPolicy) where
  memory : Memory
  allocators : ℕ → Option (AnyAllocator sizeMax P)
  supplies : List (Supply sizeMax)

inductive Action (sizeMax : ℕ) where
  | construct (i : ℕ) (T : ElementType sizeMax) (provider : Option ProviderId)
  | copy (i j : ℕ) (U : ElementType sizeMax)
  | assign (i j : ℕ)
  | allocate (i count : ℕ) (answer : Answer)
  | deallocate (i : ℕ) (r : Supply sizeMax)
  | change (c : ProviderChange)

def initial (sizeMax : ℕ) (P : MemoryPolicy) (slot : ProviderSlot) : Pool sizeMax P :=
  ⟨⟨slot, []⟩, fun _ => none, []⟩

def Pool.put (s : Pool sizeMax P) (i : ℕ) (x : AnyAllocator sizeMax P) : Pool sizeMax P :=
  { s with allocators := Function.update s.allocators i (some x) }

/-- A new allocator takes a number that is not in use. -/
def Pool.make (s : Pool sizeMax P) (i : ℕ) (x : AnyAllocator sizeMax P) : Option (Pool sizeMax P) :=
  match s.allocators i with
  | some _ => none
  | none => some (s.put i x)

def newSupply (i : ℕ) (x : AnyAllocator sizeMax P) (count : ℕ) (slot : ProviderSlot) :
    Except AllocationError ℕ → List (Supply sizeMax)
  | .ok pointer =>
    if h : pointer ≠ 0 then
      [⟨i, x.element, count, x.allocator.effectiveProvider slot, pointer, h⟩]
    else []
  | .error _ => []

def allocate (s : Pool sizeMax P) (i count : ℕ) (answer : Answer) : Option (Pool sizeMax P) :=
  (s.allocators i).map fun x =>
    let r := x.allocator.allocate count [] answer s.memory
    { memory := r.memory
      allocators := Function.update s.allocators i (some ⟨x.element, r.allocator⟩)
      supplies := s.supplies ++ newSupply i x count s.memory.slot r.result }

/-- The allocator, converted to the element type of the block, releases it. -/
def releaseThrough (x : AnyAllocator sizeMax P) (r : Supply sizeMax) (m : Memory) : Memory :=
  (x.allocator.rebind r.element).deallocate r.pointer r.count m

def deallocate (s : Pool sizeMax P) (i : ℕ) (r : Supply sizeMax) : Option (Pool sizeMax P) :=
  if r ∈ s.supplies then
    (s.allocators i).map fun x =>
      { s with memory := releaseThrough x r s.memory, supplies := s.supplies.erase r }
  else none

def next (s : Pool sizeMax P) : Action sizeMax → Option (Pool sizeMax P)
  | .construct i T provider => s.make i ⟨T, ⟨provider⟩⟩
  | .copy i j U => (s.allocators i).bind fun x => s.make j ⟨U, x.allocator.rebind U⟩
  | .assign i j =>
    (s.allocators i).bind fun x => (s.allocators j).map fun y =>
      s.put j ⟨y.element, x.allocator.rebind y.element⟩
  | .allocate i count answer => allocate s i count answer
  | .deallocate i r => deallocate s i r
  | .change c => some { s with memory := s.memory.change [c] }

/-- `a == b` -/
def equal (s : Pool sizeMax P) (a b : ℕ) : Bool :=
  match s.allocators a, s.allocators b with
  | some x, some y => x.allocator.equals y.allocator s.memory.slot
  | _, _ => false

/-- Whatever was supplied through `a`, releasing it through `b` is one call that gives the
block back to the provider that supplied it. -/
def Releasable (a b : ℕ) (s : Pool sizeMax P) : Prop :=
  ∀ r ∈ s.supplies, r.through = a → ∀ y ∈ s.allocators b,
    (releaseThrough y r s.memory).calls = s.memory.calls ++ [.deallocate (r.block P)]

def Unassigned (a b : ℕ) (_ : Pool sizeMax P) : Action sizeMax → Prop
  | .assign _ j => j ≠ a ∧ j ≠ b
  | _ => True

/-- While something supplied through `a` is out, no change of the active provider may be one
that the unbound `b` follows; and `a` may supply only while it equals `b`. -/
def Compliant (a b : ℕ) (s : Pool sizeMax P) : Action sizeMax → Prop
  | .change c =>
    (∃ r ∈ s.supplies, r.through = a) → (∃ y ∈ s.allocators b, y.allocator.isProviderBound = false) →
      getProvider (c.apply s.memory.slot) = getProvider s.memory.slot
  | .allocate i count answer =>
    i = a → (∃ x ∈ s.allocators a, ¬ count > sizeMax / x.element.size) →
      answer.isBlock = true → equal s a b = true
  | .construct _ _ _ | .copy _ _ _ | .assign _ _ | .deallocate _ _ => True

instance (a b : ℕ) (s : Pool sizeMax P) : ∀ act, Decidable (Unassigned a b s act)
  | .assign _ j => inferInstanceAs (Decidable (j ≠ a ∧ j ≠ b))
  | .construct _ _ _ | .copy _ _ _ | .allocate _ _ _ | .deallocate _ _ | .change _ => isTrue trivial

instance (a b : ℕ) (s : Pool sizeMax P) : ∀ act, Decidable (Compliant a b s act)
  | .change c => inferInstanceAs (Decidable
      ((∃ r ∈ s.supplies, r.through = a) →
        (∃ y ∈ s.allocators b, y.allocator.isProviderBound = false) →
          getProvider (c.apply s.memory.slot) = getProvider s.memory.slot))
  | .allocate i count answer => inferInstanceAs (Decidable
      (i = a → (∃ x ∈ s.allocators a, ¬ count > sizeMax / x.element.size) →
        answer.isBlock = true → equal s a b = true))
  | .construct _ _ _ | .copy _ _ _ | .assign _ _ | .deallocate _ _ => isTrue trivial

theorem releaseThrough_calls (x : AnyAllocator sizeMax P) (r : Supply sizeMax) (m : Memory) :
    (releaseThrough x r m).calls = m.calls ++
      [.deallocate ⟨request r.element P (x.allocator.effectiveProvider m.slot) r.count, r.pointer⟩] := by
  simp only [releaseThrough, deallocate_pointer r.pointer_ne, rebind_effectiveProvider,
    Memory.deallocate]

/-- `Provider()` of the allocator numbered `i` -/
def Pool.effective (s : Pool sizeMax P) (i : ℕ) : Option ProviderId :=
  (s.allocators i).map fun x => x.allocator.effectiveProvider s.memory.slot

theorem equal_iff {s : Pool sizeMax P} {a b : ℕ} :
    equal s a b = true ↔ ∃ p, s.effective a = some p ∧ s.effective b = some p := by
  unfold equal Pool.effective
  cases s.allocators a with
  | none => simp
  | some x =>
    cases s.allocators b with
    | none => simp
    | some y =>
      constructor
      · exact fun h => ⟨_, rfl, congrArg some (beq_iff_eq.mp h).symm⟩
      · rintro ⟨p, hx, hy⟩
        exact beq_iff_eq.mpr (Option.some.inj (hx.trans hy.symm))

theorem releasable_iff {a b : ℕ} {s : Pool sizeMax P} :
    Releasable a b s ↔
      ∀ r ∈ s.supplies, r.through = a → ∀ p ∈ s.effective b, r.provider = p := by
  unfold Releasable Pool.effective
  constructor
  · intro h r hr ha p hp
    obtain ⟨y, hy, rfl⟩ := Option.map_eq_some_iff.mp hp
    have same := List.append_cancel_left ((releaseThrough_calls y r s.memory).symm.trans (h r hr ha y hy))
    simp only [Supply.block, List.cons.injEq, ProviderCall.deallocate.injEq, Block.mk.injEq,
      and_true] at same
    exact (congrArg Request.provider same).symm
  · intro h r hr ha y hy
    have same := h r hr ha _ (Option.map_eq_some_iff.mpr ⟨y, hy, rfl⟩)
    rw [releaseThrough_calls, ← same]
    rfl

theorem make_cases {s t : Pool sizeMax P} {i : ℕ} {x : AnyAllocator sizeMax P}
    (h : s.make i x = some t) : s.allocators i = none ∧ t = s.put i x := by
  unfold Pool.make at h
  split at h
  · cases h
  · rename_i vacant
    exact ⟨vacant, (Option.some.inj h).symm⟩

inductive Step (s : Pool sizeMax P) : Action sizeMax → Pool sizeMax P → Prop where
  | construct {i : ℕ} (T : ElementType sizeMax) (provider : Option ProviderId)
      (vacant : s.allocators i = none) :
      Step s (.construct i T provider) (s.put i ⟨T, ⟨provider⟩⟩)
  | copy {i j : ℕ} (U : ElementType sizeMax) {x : AnyAllocator sizeMax P}
      (hx : s.allocators i = some x) (vacant : s.allocators j = none) :
      Step s (.copy i j U) (s.put j ⟨U, x.allocator.rebind U⟩)
  | assign {i j : ℕ} {x y : AnyAllocator sizeMax P} (hx : s.allocators i = some x)
      (hy : s.allocators j = some y) :
      Step s (.assign i j) (s.put j ⟨y.element, x.allocator.rebind y.element⟩)
  | allocate {i : ℕ} (count : ℕ) (answer : Answer) {x : AnyAllocator sizeMax P}
      (hx : s.allocators i = some x) {r : Allocated x.element P}
      (hr : x.allocator.allocate count [] answer s.memory = r) :
      Step s (.allocate i count answer)
        { memory := r.memory
          allocators := Function.update s.allocators i (some ⟨x.element, r.allocator⟩)
          supplies := s.supplies ++ newSupply i x count s.memory.slot r.result }
  | deallocate {i : ℕ} {r : Supply sizeMax} {x : AnyAllocator sizeMax P} (hr : r ∈ s.supplies)
      (hx : s.allocators i = some x) : Step s (.deallocate i r)
        { s with memory := releaseThrough x r s.memory, supplies := s.supplies.erase r }
  | change (c : ProviderChange) : Step s (.change c) { s with memory := s.memory.change [c] }

theorem step_cases {s t : Pool sizeMax P} {act : Action sizeMax} (h : next s act = some t) :
    Step s act t := by
  cases act with
  | construct i T provider =>
    obtain ⟨vacant, rfl⟩ := make_cases h
    exact .construct T provider vacant
  | copy i j U =>
    obtain ⟨x, hx, hmake⟩ := Option.bind_eq_some_iff.mp h
    obtain ⟨vacant, rfl⟩ := make_cases hmake
    exact .copy U hx vacant
  | assign i j =>
    obtain ⟨x, hx, hrest⟩ := Option.bind_eq_some_iff.mp h
    obtain ⟨y, hy, rfl⟩ := Option.map_eq_some_iff.mp hrest
    exact .assign hx hy
  | allocate i count answer =>
    obtain ⟨x, hx, rfl⟩ := Option.map_eq_some_iff.mp h
    exact .allocate count answer hx rfl
  | deallocate i r =>
    simp only [next, deallocate] at h
    split at h
    · rename_i hr
      obtain ⟨x, hx, rfl⟩ := Option.map_eq_some_iff.mp h
      exact .deallocate hr hx
    · cases h
  | change c => exact Option.some.inj h ▸ .change c

theorem put_other {s : Pool sizeMax P} {i j : ℕ} (x : AnyAllocator sizeMax P) (h : j ≠ i) :
    (s.put i x).allocators j = s.allocators j :=
  Function.update_of_ne h _ _

theorem allocate_effectiveProvider {T : ElementType sizeMax} (a : Allocator T P) (count : ℕ)
    (answer : Answer) (m : Memory) :
    (a.allocate count [] answer m).allocator.effectiveProvider m.slot = a.effectiveProvider m.slot ∧
      (a.allocate count [] answer m).memory.slot = m.slot := by
  by_cases h : count > sizeMax / T.size
  · rw [allocate_oversized h]
    exact ⟨rfl, rfl⟩
  · cases answer with
    | pointer address =>
      rw [allocate_pointer h]
      exact ⟨bindProvider_effectiveProvider a m.slot m.slot, rfl⟩
    | exception =>
      rw [allocate_exception h]
      exact ⟨bindProvider_effectiveProvider a m.slot m.slot, rfl⟩

theorem mem_newSupply {i : ℕ} {x : AnyAllocator sizeMax P} {count : ℕ} {answer : Answer} {m : Memory}
    {r : Supply sizeMax}
    (h : r ∈ newSupply i x count m.slot (x.allocator.allocate count [] answer m).result) :
    r.through = i ∧ r.provider = x.allocator.effectiveProvider m.slot ∧
      (x.allocator.allocate count [] answer m).allocator.provider = some r.provider ∧
      ¬ count > sizeMax / x.element.size ∧ answer = .pointer r.pointer ∧
      (x.allocator.allocate count [] answer m).memory.calls =
        m.calls ++ [.allocate (r.block P).request (.pointer r.pointer)] := by
  by_cases hcount : count > sizeMax / x.element.size
  · rw [allocate_oversized hcount] at h
    cases h
  · cases answer with
    | exception =>
      rw [allocate_exception hcount] at h
      cases h
    | pointer address =>
      rw [allocate_pointer hcount] at h ⊢
      simp only [newSupply] at h
      split at h
      · rw [List.mem_singleton.mp h]
        exact ⟨rfl, rfl, bindProvider_provider _ _, hcount, rfl, rfl⟩
      · cases h

theorem newSupply_pointer {i : ℕ} {x : AnyAllocator sizeMax P} {count address : ℕ} {m : Memory}
    (hcount : ¬ count > sizeMax / x.element.size) (haddress : address ≠ 0) :
    newSupply i x count m.slot (x.allocator.allocate count [] (.pointer address) m).result =
      [⟨i, x.element, count, x.allocator.effectiveProvider m.slot, address, haddress⟩] := by
  rw [allocate_pointer hcount]
  exact dif_pos haddress

theorem effective_put {s : Pool sizeMax P} {i j : ℕ} (x : AnyAllocator sizeMax P) (h : j ≠ i) :
    (s.put i x).effective j = s.effective j := by
  unfold Pool.effective
  rw [put_other x h]
  rfl

theorem ne_of_vacant {s : Pool sizeMax P} {b j : ℕ} {p : ProviderId} (hb : s.effective b = some p)
    (vacant : s.allocators j = none) : b ≠ j := by
  intro h
  subst h
  simp [Pool.effective, vacant] at hb

/-- Nothing but a provider change makes an allocator use another provider. -/
theorem effective_step {s t : Pool sizeMax P} {act : Action sizeMax} {a b : ℕ} {p : ProviderId}
    (hu : Unassigned a b s act) (hb : s.effective b = some p) (h : Step s act t) :
    t.effective b = some p ∨ ∃ c, act = .change c := by
  cases h with
  | construct T provider vacant =>
    exact .inl ((effective_put _ (ne_of_vacant hb vacant)).trans hb)
  | copy U hx vacant => exact .inl ((effective_put _ (ne_of_vacant hb vacant)).trans hb)
  | assign hx hy => exact .inl ((effective_put _ (Ne.symm hu.2)).trans hb)
  | @allocate i count answer x hx r hr =>
    obtain ⟨same, slot⟩ := allocate_effectiveProvider x.allocator count answer s.memory
    refine .inl (Eq.trans ?_ hb)
    subst hr
    unfold Pool.effective
    by_cases hi : b = i
    · subst hi
      simp only [Function.update_self, slot, hx, Option.map_some]
      exact congrArg some same
    · simp only [Function.update_of_ne hi, slot]
  | deallocate hr hx =>
    refine .inl (Eq.trans ?_ hb)
    simp only [Pool.effective, releaseThrough, deallocate_pointer _ , Memory.deallocate,
      Supply.pointer_ne, ne_eq, not_false_eq_true]
  | change c => exact .inr ⟨c, rfl⟩

def Consistent (a : ℕ) (s : Pool sizeMax P) : Prop :=
  ∀ r ∈ s.supplies, r.through = a →
    ∃ x, s.allocators a = some x ∧ x.allocator.provider = some r.provider

theorem consistent_put {s : Pool sizeMax P} {a j : ℕ} (hs : Consistent a s)
    (x : AnyAllocator sizeMax P) (free : ∀ y, s.allocators a = some y → j ≠ a) :
    Consistent a (s.put j x) := by
  intro r hr ha
  obtain ⟨y, hy, hp⟩ := hs r hr ha
  exact ⟨y, (put_other x (free y hy).symm).trans hy, hp⟩

theorem consistent_step {s t : Pool sizeMax P} {act : Action sizeMax} {a b : ℕ}
    (hu : Unassigned a b s act) (hs : Consistent a s) (h : Step s act t) : Consistent a t := by
  have occupied : ∀ {j}, s.allocators j = none → ∀ y, s.allocators a = some y → j ≠ a := by
    intro j vacant y hy hj
    rw [hj, hy] at vacant
    cases vacant
  cases h with
  | construct T provider vacant => exact consistent_put hs _ (occupied vacant)
  | copy U hx vacant => exact consistent_put hs _ (occupied vacant)
  | assign hx hy => exact consistent_put hs _ fun _ _ => hu.1
  | @allocate i count answer x hx r hr =>
    subst hr
    intro q hq ha
    rcases List.mem_append.mp hq with hold | hnew
    · obtain ⟨y, hy, hp⟩ := hs q hold ha
      by_cases hi : a = i
      · subst hi
        have hxy : x = y := Option.some.inj (hx.symm.trans hy)
        subst hxy
        exact ⟨_, Function.update_self _ _ _, allocate_bound hp count [] answer s.memory⟩
      · exact ⟨y, (Function.update_of_ne hi _ _).trans hy, hp⟩
    · obtain ⟨hi, _, hbound, _⟩ := mem_newSupply hnew
      have hia : i = a := hi.symm.trans ha
      subst hia
      exact ⟨_, Function.update_self _ _ _, hbound⟩
  | deallocate hr hx => exact fun q hq ha => hs q (List.mem_of_mem_erase hq) ha
  | change c => exact hs

theorem releasable_allocate {s : Pool sizeMax P} {a b i count : ℕ} {answer : Answer}
    {x : AnyAllocator sizeMax P} {p : ProviderId} (hx : s.allocators i = some x)
    (hb : s.effective b = some p) :
    (∀ r ∈ newSupply i x count s.memory.slot
        (x.allocator.allocate count [] answer s.memory).result, r.through = a → r.provider = p) ↔
      Compliant a b s (.allocate i count answer) := by
  constructor
  · rintro h rfl ⟨y, hy, hcount⟩ hblock
    obtain ⟨address, haddress, rfl⟩ := isBlock_iff.mp hblock
    have hxy : x = y := Option.some.inj (hx.symm.trans hy)
    subst hxy
    rw [newSupply_pointer hcount haddress] at h
    have same := h _ (List.mem_singleton.mpr rfl) rfl
    refine equal_iff.mpr ⟨p, ?_, hb⟩
    unfold Pool.effective
    rw [hx, ← same]
    rfl
  · intro hc r hr ha
    obtain ⟨hi, hprovider, _, hcount, hanswer, _⟩ := mem_newSupply hr
    have hia : i = a := hi.symm.trans ha
    subst hia
    obtain ⟨q, hqa, hqb⟩ := equal_iff.mp (hc rfl ⟨x, hx, hcount⟩
      (isBlock_iff.mpr ⟨_, r.pointer_ne, hanswer⟩))
    have hqp : q = p := Option.some.inj (hqb.symm.trans hb)
    subst hqp
    unfold Pool.effective at hqa
    rw [hx] at hqa
    exact hprovider.trans (Option.some.inj hqa)

theorem releasable_change {s : Pool sizeMax P} {a b : ℕ} {p : ProviderId} (hs : Releasable a b s)
    (hb : s.effective b = some p) (c : ProviderChange) :
    Releasable a b { s with memory := s.memory.change [c] } ↔ Compliant a b s (.change c) := by
  obtain ⟨y, hy, hp⟩ := Option.map_eq_some_iff.mp hb
  have later : ∀ q, ({ s with memory := s.memory.change [c] } : Pool sizeMax P).effective b = some q ↔
      y.allocator.effectiveProvider (c.apply s.memory.slot) = q := by
    intro q
    simp only [Pool.effective, hy, Option.map_some, Option.some.injEq]
    rfl
  rw [releasable_iff] at hs ⊢
  cases hbound : y.allocator.provider with
  | some q =>
    have same : y.allocator.effectiveProvider (c.apply s.memory.slot) = p :=
      (effectiveProvider_bound hbound _).trans ((effectiveProvider_bound hbound _).symm.trans hp)
    refine iff_of_true ?_ ?_
    · intro r hr ha q' hq'
      exact (hs r hr ha p hb).trans (same.symm.trans ((later q').mp hq'))
    · rintro _ ⟨z, hz, unbound⟩
      have hyz : y = z := Option.some.inj (hy.symm.trans hz)
      subst hyz
      simp [Allocator.isProviderBound, hbound] at unbound
  | none =>
    have now : getProvider s.memory.slot = p := (effectiveProvider_unbound hbound _).symm.trans hp
    have after := effectiveProvider_unbound hbound (c.apply s.memory.slot)
    constructor
    · rintro h ⟨r, hr, ha⟩ _
      rw [now, ← hs r hr ha p hb, h r hr ha _ ((later _).mpr after)]
    · intro hc r hr ha q hq
      have kept := hc ⟨r, hr, ha⟩ ⟨y, hy, by simp [Allocator.isProviderBound, hbound]⟩
      exact (hs r hr ha p hb).trans (now.symm.trans (kept.symm.trans (after.symm.trans ((later q).mp hq))))

/-- A step from a state in which all is releasable keeps it so exactly when it complies. -/
theorem releasable_step {s t : Pool sizeMax P} {act : Action sizeMax} {a b : ℕ}
    (hu : Unassigned a b s act) (present : ∃ p, s.effective b = some p) (hs : Releasable a b s)
    (h : Step s act t) : Releasable a b t ↔ Compliant a b s act := by
  obtain ⟨p, hb⟩ := present
  rcases effective_step hu hb h with hbt | ⟨c, rfl⟩
  · have hold := releasable_iff.mp hs
    have toNow : Releasable a b t ↔ ∀ r ∈ t.supplies, r.through = a → r.provider = p := by
      rw [releasable_iff, hbt]
      simp only [Option.mem_def, Option.some.injEq, forall_eq']
    rw [toNow]
    cases h with
    | construct T provider vacant => exact iff_of_true (fun r hr ha => hold r hr ha p hb) trivial
    | copy U hx vacant => exact iff_of_true (fun r hr ha => hold r hr ha p hb) trivial
    | assign hx hy => exact iff_of_true (fun r hr ha => hold r hr ha p hb) trivial
    | deallocate hr hx =>
      exact iff_of_true (fun q hq ha => hold q (List.mem_of_mem_erase hq) ha p hb) trivial
    | @allocate i count answer x hx r hr =>
      subst hr
      rw [← releasable_allocate hx hb]
      constructor
      · exact fun h q hq => h q (List.mem_append_right _ hq)
      · intro h q hq ha
        rcases List.mem_append.mp hq with hq | hq
        · exact hold q hq ha p hb
        · exact h q hq ha
    | change c =>
      rw [← toNow]
      exact releasable_change hs hb c
  · cases h
    exact releasable_change hs hb c

theorem present_step {s t : Pool sizeMax P} {act : Action sizeMax} {a b : ℕ}
    (hu : Unassigned a b s act) (present : ∃ p, s.effective b = some p) (h : Step s act t) :
    ∃ p, t.effective b = some p := by
  obtain ⟨p, hb⟩ := present
  rcases effective_step hu hb h with hbt | ⟨c, rfl⟩
  · exact ⟨p, hbt⟩
  · cases h
    obtain ⟨y, hy, _⟩ := Option.map_eq_some_iff.mp hb
    exact ⟨_, Option.map_eq_some_iff.mpr ⟨y, hy, rfl⟩⟩

theorem releasable_of_equal {s : Pool sizeMax P} {a b : ℕ} (hs : Consistent a s)
    (h : equal s a b = true) : Releasable a b s := by
  obtain ⟨p, hpa, hpb⟩ := equal_iff.mp h
  rw [releasable_iff]
  intro r hr ha q hq
  obtain ⟨x, hx, hbound⟩ := hs r hr ha
  unfold Pool.effective at hpa
  rw [hx] at hpa
  have hrp : r.provider = p := (effectiveProvider_bound hbound _).symm.trans (Option.some.inj hpa)
  exact hrp.trans (Option.some.inj (hpb.symm.trans hq))

/-- From a moment at which `a == b`, everything supplied through `a` stays releasable through
`b` in exactly those executions whose steps all comply. -/
theorem equal_allocators_interchangeable_iff (slot : ProviderSlot) (a b : ℕ)
    {as bs : List (Action sizeMax)} {s t : Pool sizeMax P}
    (h : run next (initial sizeMax P slot) as = some s)
    (hu : Meets next (Unassigned a b) (initial sizeMax P slot) as) (hequal : equal s a b = true)
    (h' : run next s bs = some t) (hu' : Meets next (Unassigned a b) s bs) :
    Throughout next (Releasable a b) s bs ↔ Meets next (Compliant a b) s bs := by
  have start : Consistent a (initial sizeMax P slot) := by
    intro r hr
    cases hr
  have consistent : Consistent a s :=
    invariant_of_meets (C := Unassigned a b)
      (fun _ _ _ hact hs hstep => consistent_step hact hs (step_cases hstep)) start hu h
  obtain ⟨p, _, present⟩ := equal_iff.mp hequal
  exact throughout_iff_meets (I := fun s => ∃ p, s.effective b = some p)
    (fun _ _ _ hact hs hstep => present_step hact hs (step_cases hstep))
    (fun _ _ _ hact hI hP hstep => releasable_step hact hI hP (step_cases hstep))
    hu' ⟨p, present⟩ (releasable_of_equal consistent hequal) h'

end

section

def copied : List (Action 0xFFFFFFFF) := [.construct 0 byteType none, .copy 0 1 wordType]

theorem equal_allocators_interchangeable_bound :
    ∃ s, run next (initial 0xFFFFFFFF .automatic (some 1)) copied = some s ∧
      Throughout next (Releasable 0 1) s
        [.allocate 0 4 (.pointer 64), .allocate 1 2 (.pointer 96), .change (.setProvider (some 2)),
          .deallocate 1 ⟨0, byteType, 4, 1, 64, by decide⟩] := by
  have start : run next (initial 0xFFFFFFFF .automatic (some 1)) copied = some _ := rfl
  refine ⟨_, start, ?_⟩
  exact (equal_allocators_interchangeable_iff (some 1) 0 1 start (by decide +kernel)
    (by decide +kernel) rfl (by decide +kernel)).mpr (by decide +kernel)

/-- Only the first has allocated when the provider is replaced: the copy would hand its block
to the replacement. -/
theorem equal_allocators_part :
    ∃ s, run next (initial 0xFFFFFFFF .automatic (some 1)) copied = some s ∧
      equal s 0 1 = true ∧
      ¬ Throughout next (Releasable 0 1) s
        [.allocate 0 4 (.pointer 64), .change (.setProvider (some 2))] := by
  refine ⟨_, rfl, by decide +kernel, ?_⟩
  rintro ⟨_, later⟩
  have final := (later _ rfl).2 _ rfl
  have calls := final ⟨0, byteType, 4, 1, 64, by decide⟩ (by decide +kernel) rfl _ rfl
  revert calls
  decide +kernel

end

end ESPressioSystem.AllocatorEquality
