import ESPressioSystem.SharedOwnership

set_option autoImplicit false

/-!
# Runs of any number of objects made by `MakeShared`

`std::allocate_shared` takes the block through a rebound copy of its argument, which a guard
keeps until the constructor has returned; the control block keeps a second copy, through which
the block is released with the last reference.
-/
namespace ESPressioSystem.SharedPointers
open Transition Ledger MemoryProvider MemoryAllocator

/-- With the numbers of shared and of weak pointers. -/
inductive Phase where
  | constructing
  | shared (strong weak : ℕ)
  | destroying (weak : ℕ)
  | expired (weak : ℕ)
  deriving DecidableEq, Repr

/-- Object and control block; the library settles the type of the block they share. -/
structure Control (sizeMax : ℕ) where
  type : ElementType sizeMax
  block : ElementType sizeMax
  policy : MemoryPolicy
  guard : Allocator block policy
  stored : Allocator type policy
  pointer : ℕ
  phase : Phase

inductive Reference where
  | copy
  | drop
  | destructed
  | observe
  | lock
  | forget
  deriving DecidableEq, Repr

/-- The next phase, or none if the block is released. -/
def Reference.apply : Reference → Phase → Option (Option Phase)
  | .copy, .shared (n + 1) w => some (some (.shared (n + 2) w))
  | .drop, .shared (n + 2) w => some (some (.shared (n + 1) w))
  | .drop, .shared 1 w => some (some (.destroying w))
  | .destructed, .destroying 0 => some none
  | .destructed, .destroying (w + 1) => some (some (.expired (w + 1)))
  | .observe, .shared (n + 1) w => some (some (.shared (n + 1) (w + 1)))
  | .observe, .destroying (w + 1) => some (some (.destroying (w + 2)))
  | .observe, .expired (w + 1) => some (some (.expired (w + 2)))
  | .lock, .shared (n + 1) (w + 1) => some (some (.shared (n + 2) (w + 1)))
  | .forget, .shared (n + 1) (w + 1) => some (some (.shared (n + 1) w))
  | .forget, .destroying (w + 1) => some (some (.destroying w))
  | .forget, .expired (w + 2) => some (some (.expired (w + 1)))
  | .forget, .expired 1 => some none
  | _, _ => none

section
variable {sizeMax : ℕ}

structure State (sizeMax : ℕ) (ι : Type) where
  memory : Memory
  objects : ι → Option (Control sizeMax)

inductive Action (sizeMax : ℕ) (ι : Type) where
  | make (i : ι) (type block : ElementType sizeMax) (policy : MemoryPolicy)
      (between : List ProviderChange) (answer : Answer)
  | constructed (i : ι)
  | constructorThrew (i : ι)
  | refer (i : ι) (r : Reference)
  | change (c : ProviderChange)

def Control.release (c : Control sizeMax) (m : Memory) : Memory :=
  (c.stored.rebind c.block).deallocate c.pointer 1 m

variable {ι : Type} [DecidableEq ι]

def initial (sizeMax : ℕ) (ι : Type) (slot : ProviderSlot) : State sizeMax ι :=
  ⟨⟨slot, []⟩, fun _ => none⟩

def State.put (s : State sizeMax ι) (i : ι) (c : Option (Control sizeMax)) (m : Memory) :
    State sizeMax ι :=
  ⟨m, Function.update s.objects i c⟩

def make (s : State sizeMax ι) (i : ι) (T B : ElementType sizeMax) (P : MemoryPolicy)
    (between : List ProviderChange) (answer : Answer) : Option (State sizeMax ι) :=
  match s.objects i with
  | some _ => none
  | none =>
    let argument : Allocator T P := .unbound
    let r := (argument.rebind B).allocate 1 between answer s.memory
    match r.result with
    | .ok pointer =>
      some (s.put i (some ⟨T, B, P, r.allocator, argument.rebind T, pointer, .constructing⟩) r.memory)
    | .error _ => some { s with memory := r.memory }

def constructed (s : State sizeMax ι) (i : ι) : Option (State sizeMax ι) :=
  (s.objects i).bind fun c =>
    match c.phase with
    | .constructing => some (s.put i (some { c with phase := .shared 1 0 }) s.memory)
    | _ => none

def constructorThrew (s : State sizeMax ι) (i : ι) : Option (State sizeMax ι) :=
  (s.objects i).bind fun c =>
    match c.phase with
    | .constructing => some (s.put i none (c.guard.deallocate c.pointer 1 s.memory))
    | _ => none

def refer (s : State sizeMax ι) (i : ι) (r : Reference) : Option (State sizeMax ι) :=
  (s.objects i).bind fun c =>
    (r.apply c.phase).map fun
      | some phase => s.put i (some { c with phase := phase }) s.memory
      | none => s.put i none (c.release s.memory)

def next (s : State sizeMax ι) : Action sizeMax ι → Option (State sizeMax ι)
  | .make i T B P between answer => make s i T B P between answer
  | .constructed i => constructed s i
  | .constructorThrew i => constructorThrew s i
  | .refer i r => refer s i r
  | .change c => some { s with memory := s.memory.change [c] }

/-- The object whose block the action releases through the stored allocator. -/
def releasing (s : State sizeMax ι) : Action sizeMax ι → Option (Control sizeMax)
  | .refer i r => (s.objects i).filter fun c => r.apply c.phase = some none
  | .make _ _ _ _ _ _ | .constructed _ | .constructorThrew _ | .change _ => none

end

section
variable {sizeMax : ℕ} {ι : Type}

/-- The block as it was supplied. -/
def Control.supply (c : Control sizeMax) : Block :=
  ⟨request c.block c.policy (c.guard.provider.getD defaultProvider) 1, c.pointer⟩

def supplyOf : Option (Control sizeMax) → Multiset Block
  | some c => {c.supply}
  | none => 0

def owned (s : State sizeMax ι) (i : ι) : Multiset Block := supplyOf (s.objects i)

/-- The guard has bound, the stored copy has not. -/
def Control.Sound (c : Control sizeMax) : Prop :=
  c.guard.isProviderBound = true ∧ c.stored.provider = none ∧ c.pointer ≠ 0

def Sound (s : State sizeMax ι) : Prop := ∀ i c, s.objects i = some c → c.Sound

def Balanced [Fintype ι] (s : State sizeMax ι) : Prop :=
  outstanding s.memory.calls = some (holdings (owned s))

/-- A block is released while the provider that supplied it is the active one. -/
def ReleasesHome (s : State sizeMax ι) (a : Action sizeMax ι) : Prop :=
  ∀ c ∈ releasing s a, c.guard.provider = some (getProvider s.memory.slot)

def Proper (_ : State sizeMax ι) : Action sizeMax ι → Prop
  | .make _ _ _ _ _ answer => answer ≠ .pointer 0
  | .constructed _ | .constructorThrew _ | .refer _ _ | .change _ => True

instance (s : State sizeMax ι) : ∀ a, Decidable (Proper s a)
  | .make _ _ _ _ _ answer => inferInstanceAs (Decidable (answer ≠ .pointer 0))
  | .constructed _ | .constructorThrew _ | .refer _ _ | .change _ => isTrue trivial

end

section
variable {sizeMax : ℕ} {ι : Type} [DecidableEq ι] {s t : State sizeMax ι} {a : Action sizeMax ι}

theorem make_pointer (s : State sizeMax ι) {i : ι} (vacant : s.objects i = none)
    (T B : ElementType sizeMax) (P : MemoryPolicy) (between : List ProviderChange) (address : ℕ) :
    make s i T B P between (.pointer address) =
      some (s.put i (some ⟨T, B, P, .boundTo (getProvider s.memory.slot), .unbound, address,
        .constructing⟩) ((s.memory.change between).allocate
          (request B P (getProvider s.memory.slot) 1) (.pointer address))) := by
  simp only [make, vacant, allocate_pointer (one_fits B)]
  rfl

theorem make_exception (s : State sizeMax ι) {i : ι} (vacant : s.objects i = none)
    (T B : ElementType sizeMax) (P : MemoryPolicy) (between : List ProviderChange) :
    make s i T B P between .exception =
      some ⟨(s.memory.change between).allocate (request B P (getProvider s.memory.slot) 1) .exception,
        s.objects⟩ := by
  simp only [make, vacant, allocate_exception (one_fits B)]
  rfl

/-- What the steps can do: all but two put an object where it is with another phase. -/
inductive Step (s : State sizeMax ι) : Action sizeMax ι → State sizeMax ι → Prop where
  | made {i : ι} {T B : ElementType sizeMax} {P : MemoryPolicy} {between : List ProviderChange}
      {address : ℕ} (vacant : s.objects i = none) :
      Step s (.make i T B P between (.pointer address)) (s.put i
        (some ⟨T, B, P, .boundTo (getProvider s.memory.slot), .unbound, address, .constructing⟩)
        ((s.memory.change between).allocate (request B P (getProvider s.memory.slot) 1)
          (.pointer address)))
  | refused {i : ι} {T B : ElementType sizeMax} {P : MemoryPolicy} {between : List ProviderChange}
      (vacant : s.objects i = none) :
      Step s (.make i T B P between .exception)
        ⟨(s.memory.change between).allocate (request B P (getProvider s.memory.slot) 1) .exception,
          s.objects⟩
  | phase {a : Action sizeMax ι} {i : ι} {c : Control sizeMax} (h : s.objects i = some c)
      (phase : Phase) (silent : releasing s a = none) (quiet : ∀ T B P between answer,
        a ≠ .make i T B P between answer) :
      Step s a (s.put i (some { c with phase := phase }) s.memory)
  | threw {i : ι} {c : Control sizeMax} (h : s.objects i = some c) :
      Step s (.constructorThrew i) (s.put i none (c.guard.deallocate c.pointer 1 s.memory))
  | released {i : ι} {r : Reference} {c : Control sizeMax} (h : s.objects i = some c)
      (last : releasing s (.refer i r) = some c) :
      Step s (.refer i r) (s.put i none (c.release s.memory))
  | change (c : ProviderChange) : Step s (.change c) { s with memory := s.memory.change [c] }

theorem step_cases (h : next s a = some t) : Step s a t := by
  cases a with
  | make i T B P between answer =>
    cases hi : s.objects i with
    | some c => simp [next, make, hi] at h
    | none =>
      cases answer with
      | pointer address =>
        rw [next, make_pointer s hi] at h
        exact Option.some.inj h ▸ .made hi
      | exception =>
        rw [next, make_exception s hi] at h
        exact Option.some.inj h ▸ .refused hi
  | constructed i =>
    obtain ⟨c, hc, hrest⟩ := Option.bind_eq_some_iff.mp h
    split at hrest
    · exact Option.some.inj hrest ▸ .phase hc _ rfl nofun
    · cases hrest
  | constructorThrew i =>
    obtain ⟨c, hc, hrest⟩ := Option.bind_eq_some_iff.mp h
    split at hrest
    · exact Option.some.inj hrest ▸ .threw hc
    · cases hrest
  | refer i r =>
    obtain ⟨c, hc, hrest⟩ := Option.bind_eq_some_iff.mp h
    obtain ⟨result, hresult, rfl⟩ := Option.map_eq_some_iff.mp hrest
    cases result with
    | none => exact .released hc (by simp [releasing, hc, hresult])
    | some phase => exact .phase hc phase (by simp [releasing, hc, hresult]) nofun
  | change c => exact Option.some.inj h ▸ .change c

theorem sound_put (hs : Sound s) {i : ι} {c : Option (Control sizeMax)} {m : Memory}
    (hc : ∀ d, c = some d → d.Sound) : Sound (s.put i c m) :=
  (Function.forall_update_iff s.objects fun _ e => ∀ d, e = some d → d.Sound).mpr
    ⟨hc, fun j _ => hs j⟩

theorem sound_step (ha : Proper s a) (hs : Sound s) (h : Step s a t) : Sound t := by
  cases h with
  | made _ =>
    refine sound_put hs fun d hd => ?_
    rw [← Option.some.inj hd]
    exact ⟨rfl, rfl, fun null => ha (congrArg Answer.pointer null)⟩
  | refused _ | change _ => exact hs
  | phase hc phase _ _ =>
    refine sound_put hs fun d hd => ?_
    have before := hs _ _ hc
    rw [← Option.some.inj hd]
    exact ⟨before.1, before.2⟩
  | threw _ | released _ _ => exact sound_put hs nofun

variable [Fintype ι]

theorem balanced_put {i : ι} {c : Option (Control sizeMax)} {m : Memory} (hs : Balanced s) :
    ∃ rest, outstanding s.memory.calls = some (owned s i + rest) ∧
      (Balanced (s.put i c m) ↔
        outstanding m.calls = some (supplyOf c + rest)) := by
  obtain ⟨rest, total, update⟩ := holdings_split (owned s) i
  have put : owned (s.put i c m) = Function.update (owned s) i (supplyOf c) :=
    Function.comp_update supplyOf s.objects i c
  refine ⟨rest, total ▸ hs, ?_⟩
  rw [Balanced, put, update]
  exact Iff.rfl

theorem release_block {c : Control sizeMax} (hc : c.Sound) (m : Memory) :
    c.release m = m.deallocate ⟨request c.block c.policy (getProvider m.slot) 1, c.pointer⟩ := by
  obtain ⟨_, hstored, hpointer⟩ := hc
  have unbound : (c.stored.rebind c.block).provider = none := hstored
  rw [Control.release, deallocate_pointer hpointer, effectiveProvider_unbound unbound]

/-- One step keeps the ledger balanced exactly if a block that it releases goes home. -/
theorem balanced_step (ha : Proper s a) (hs : Sound s) (hb : Balanced s) (h : Step s a t) :
    Balanced t ↔ ReleasesHome s a := by
  cases h with
  | @made i T B P between address vacant =>
    refine iff_of_true ?_ nofun
    obtain ⟨rest, start, put⟩ := balanced_put (i := i) hb
    rw [owned, vacant, supplyOf, zero_add] at start
    have hne : address ≠ 0 := fun null => ha (congrArg Answer.pointer null)
    refine put.mpr ((outstanding_allocate (m := s.memory.change between) _ _ start).trans ?_)
    rw [supplied_pointer _ hne]
    rfl
  | refused vacant =>
    refine iff_of_true ?_ nofun
    exact outstanding_allocate (m := s.memory.change _) _ .exception hb
  | @phase a i c hc phase silent quiet =>
    refine iff_of_true ?_ fun d hd => ?_
    · obtain ⟨rest, start, put⟩ := balanced_put (i := i) hb
      rw [owned, hc] at start
      exact put.mpr start
    · rw [silent] at hd
      cases hd
  | @threw i c hc =>
    refine iff_of_true ?_ nofun
    obtain ⟨rest, start, put⟩ := balanced_put (i := i) hb
    obtain ⟨hbound, _, hpointer⟩ := hs i c hc
    obtain ⟨p, hp⟩ := Option.isSome_iff_exists.mp hbound
    have same : c.supply = ⟨request c.block c.policy p 1, c.pointer⟩ := by
      rw [Control.supply, hp]
      rfl
    rw [owned, hc, supplyOf, same, Multiset.singleton_add] at start
    rw [put, deallocate_pointer hpointer, effectiveProvider_bound hp, supplyOf, zero_add]
    exact outstanding_deallocate _ start
  | @released i r c hc last =>
    obtain ⟨rest, start, put⟩ := balanced_put (i := i) hb
    have sound := hs i c hc
    obtain ⟨p, hp⟩ := Option.isSome_iff_exists.mp sound.1
    rw [owned, hc, supplyOf, Multiset.singleton_add] at start
    rw [put, supplyOf, zero_add, release_block sound, outstanding_deallocate_iff _ start]
    simp only [ReleasesHome, last, Option.mem_def, Option.some.injEq, forall_eq', hp, Control.supply,
      Option.getD_some, request, Block.mk.injEq, Request.mk.injEq, and_true]
    exact eq_comm
  | change c => exact iff_of_true hb nofun

omit [DecidableEq ι] in
theorem initial_balanced (slot : ProviderSlot) : Balanced (initial sizeMax ι slot) := by
  have none_held : holdings (owned (initial sizeMax ι slot)) = 0 := holdings_empty
  rw [Balanced, none_held]
  rfl

end

section
variable {sizeMax : ℕ} {ι : Type} [DecidableEq ι] {s t : State sizeMax ι} {a : Action sizeMax ι}

/-- The active provider is left alone unless no object made by `MakeShared` is there. -/
def Quiet (s : State sizeMax ι) : Action sizeMax ι → Prop
  | .make _ _ _ _ between _ =>
    getProvider (applyAll s.memory.slot between) = getProvider s.memory.slot
  | .change c =>
    getProvider (c.apply s.memory.slot) = getProvider s.memory.slot ∨ ∀ i, s.objects i = none
  | .constructed _ | .constructorThrew _ | .refer _ _ => True

instance [Fintype ι] (s : State sizeMax ι) : ∀ a, Decidable (Quiet s a)
  | .make _ _ _ _ between _ => inferInstanceAs (Decidable
      (getProvider (applyAll s.memory.slot between) = getProvider s.memory.slot))
  | .change c => inferInstanceAs (Decidable
      (getProvider (c.apply s.memory.slot) = getProvider s.memory.slot ∨ ∀ i, s.objects i = none))
  | .constructed _ | .constructorThrew _ | .refer _ _ => isTrue trivial

/-- All objects there are have their storage from the active provider. -/
def Settled (s : State sizeMax ι) : Prop :=
  ∀ i c, s.objects i = some c → c.guard.provider = some (getProvider s.memory.slot)

theorem settled_put (hs : Settled s) {i : ι} {c : Option (Control sizeMax)} {m : Memory}
    (same : getProvider m.slot = getProvider s.memory.slot)
    (hc : ∀ d, c = some d → d.guard.provider = some (getProvider s.memory.slot)) :
    Settled (s.put i c m) := by
  intro j d hd
  change d.guard.provider = some (getProvider m.slot)
  rw [same]
  exact (Function.forall_update_iff s.objects fun _ e =>
    ∀ d, e = some d → d.guard.provider = some (getProvider s.memory.slot)).mpr
      ⟨hc, fun j _ => hs j⟩ j d hd

theorem deallocate_slot {T : ElementType sizeMax} {P : MemoryPolicy} (a : Allocator T P)
    (pointer count : ℕ) (m : Memory) : (a.deallocate pointer count m).slot = m.slot := by
  unfold Allocator.deallocate
  split <;> rfl

theorem settled_step (ha : Quiet s a) (hs : Settled s) (h : Step s a t) : Settled t := by
  cases h with
  | made vacant =>
    refine settled_put hs ha fun d hd => ?_
    rw [← Option.some.inj hd]
    rfl
  | refused vacant =>
    intro i c hc
    exact (hs i c hc).trans (congrArg some ha.symm)
  | phase hc phase _ _ =>
    have before := hs _ _ hc
    refine settled_put hs rfl fun d hd => ?_
    rw [← Option.some.inj hd]
    exact before
  | threw hc => exact settled_put hs (congrArg getProvider (deallocate_slot _ _ _ _)) nofun
  | released hc _ => exact settled_put hs (congrArg getProvider (deallocate_slot _ _ _ _)) nofun
  | change c =>
    intro i d hd
    rcases ha with same | none_there
    · exact (hs i d hd).trans (congrArg some same.symm)
    · rw [none_there i] at hd
      cases hd

omit [DecidableEq ι] in
theorem settled_home (hs : Settled s) : ReleasesHome s a := by
  intro c hc
  cases a with
  | refer i r =>
    obtain ⟨hi, _⟩ := Option.mem_filter_iff.mp hc
    exact hs i c hi
  | make _ _ _ _ _ _ | constructed _ | constructorThrew _ | change _ => cases hc

/-- However many objects are made, shared, observed and dropped among provider changes: every
block goes back once, to the provider it came from, exactly if each last reference is dropped
while that provider is the active one. It is enough that the provider changes only while no
shared object is there. -/
theorem shared_storage_returns_iff [Fintype ι] (slot : ProviderSlot)
    {as : List (Action sizeMax ι)} {s : State sizeMax ι}
    (ha : Meets next Proper (initial sizeMax ι slot) as)
    (h : run next (initial sizeMax ι slot) as = some s) :
    (Throughout next Balanced (initial sizeMax ι slot) as ↔
      Meets next ReleasesHome (initial sizeMax ι slot) as) ∧
    (Meets next Quiet (initial sizeMax ι slot) as →
      Throughout next Balanced (initial sizeMax ι slot) as) := by
  have exact' : Throughout next Balanced (initial sizeMax ι slot) as ↔
      Meets next ReleasesHome (initial sizeMax ι slot) as :=
    throughout_iff_meets (D := Proper) (I := Sound)
      (fun _ _ _ ha hs h => sound_step ha hs (step_cases h))
      (fun _ _ _ ha hs hb h => balanced_step ha hs hb (step_cases h)) ha nofun
      (initial_balanced slot) h
  refine ⟨exact', fun quiet => exact'.mpr ?_⟩
  exact meets_of_invariant (I := Settled) (fun _ _ _ ha hs h => settled_step ha hs (step_cases h))
    (fun _ _ _ hs => settled_home hs) nofun quiet

/-- The provider changes between two objects; a weak pointer outlives the first one. -/
def successive : List (Action 0xFFFFFFFF Unit) :=
  [.make () wordType SharedOwnership.wordBlock .internal [] (.pointer 64), .constructed (),
    .refer () .observe, .refer () .copy, .refer () .drop, .refer () .drop, .refer () .destructed,
    .refer () .forget, .change (.setProvider (some 2)),
    .make () wordType SharedOwnership.wordBlock .internal [] (.pointer 64), .constructorThrew ()]

theorem shared_storage_returns_iff_successive :
    ∃ s, run next (initial 0xFFFFFFFF Unit (some 1)) successive = some s ∧
      Throughout next Balanced (initial 0xFFFFFFFF Unit (some 1)) successive := by
  have completes : (run next (initial 0xFFFFFFFF Unit (some 1)) successive).isSome := rfl
  have h := (Option.some_get completes).symm
  have proper : Meets next Proper (initial 0xFFFFFFFF Unit (some 1)) successive := by decide
  exact ⟨_, h, (shared_storage_returns_iff (some 1) proper h).2 (by decide)⟩

end

end ESPressioSystem.SharedPointers
