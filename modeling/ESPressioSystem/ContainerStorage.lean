import ESPressioSystem.MemoryAllocator

set_option autoImplicit false

/-!
# Containers that keep one allocator next to at most one block of storage

The operations follow the rules of the standard for the traits that `Allocator` declares:
move assignment and swap propagate the allocator, copy assignment does not, and copy
construction copies it. A null pointer stands for no storage.
-/
namespace ESPressioSystem.ContainerStorage
open Transition Ledger MemoryProvider MemoryAllocator

section
variable {sizeMax : ℕ} (T : ElementType sizeMax) (P : MemoryPolicy)

structure Container where
  allocator : Allocator T P
  pointer : ℕ
  count : ℕ

/-- A new block that an operation asks for. The elements are then made in it, which may
change the provider, or fail. -/
structure Fill where
  count : ℕ
  between : List ProviderChange
  answer : Answer
  during : List ProviderChange
  completes : Bool

inductive Action (ι : Type) where
  | construct (i : ι) (provider : Option ProviderId)
  | destroy (i : ι)
  | copyConstruct (i j : ι) (fill : Option Fill)
  | moveConstruct (i j : ι)
  | copyAssign (i j : ι) (fill : Option Fill)
  | moveAssign (i j : ι)
  | swap (i j : ι)
  | refill (i : ι) (fill : Fill)
  | release (i : ι)
  | change (c : ProviderChange)

structure Family (ι : Type) where
  memory : Memory
  containers : ι → Option (Container T P)

structure Refilled where
  container : Container T P
  memory : Memory
  threw : Bool

end

section
variable {sizeMax : ℕ} {T : ElementType sizeMax} {P : MemoryPolicy}

/-- Growing and shrinking: a new block in the place of the old one, which stays if anything
throws. -/
def Container.refill (c : Container T P) (f : Fill) (m : Memory) : Refilled T P :=
  let r := c.allocator.allocate f.count f.between f.answer m
  match r.result with
  | .error _ => ⟨{ c with allocator := r.allocator }, r.memory, true⟩
  | .ok pointer =>
    if f.completes then
      ⟨⟨r.allocator, pointer, f.count⟩,
        r.allocator.deallocate c.pointer c.count (r.memory.change f.during), false⟩
    else
      ⟨{ c with allocator := r.allocator },
        r.allocator.deallocate pointer f.count (r.memory.change f.during), true⟩

def Container.drain (c : Container T P) (m : Memory) : Memory :=
  c.allocator.deallocate c.pointer c.count m

def Container.emptied (c : Container T P) : Container T P := { c with pointer := 0, count := 0 }

variable {ι : Type} [DecidableEq ι]

def initial (T : ElementType sizeMax) (P : MemoryPolicy) (ι : Type) (slot : ProviderSlot) :
    Family T P ι :=
  ⟨⟨slot, []⟩, fun _ => none⟩

def Family.put (s : Family T P ι) (i : ι) (c : Option (Container T P)) (m : Memory) : Family T P ι :=
  ⟨m, Function.update s.containers i c⟩

/-- `j` takes allocator and storage of `i`, which keeps its allocator. -/
def Family.take (s : Family T P ι) (i j : ι) (c : Container T P) : Family T P ι :=
  (s.put i (some c.emptied) s.memory).put j (some c) s.memory

def release (s : Family T P ι) (i : ι) : Option (Family T P ι) :=
  (s.containers i).map fun c => s.put i (some c.emptied) (c.drain s.memory)

def refill (s : Family T P ι) (i : ι) (f : Fill) : Option (Family T P ι) :=
  (s.containers i).map fun c =>
    let r := c.refill f s.memory
    s.put i (some r.container) r.memory

def construct (s : Family T P ι) (i : ι) (c : Container T P) : Option (Family T P ι) :=
  match s.containers i with
  | some _ => none
  | none => some (s.put i (some c) s.memory)

/-- The copy allocates through its own copy of the allocator; if that throws there is no copy. -/
def copyConstruct (s : Family T P ι) (i j : ι) (fill : Option Fill) : Option (Family T P ι) :=
  (s.containers i).bind fun c =>
    match s.containers j, fill with
    | some _, _ => none
    | none, none => some (s.put j (some c.emptied) s.memory)
    | none, some f =>
      let r := c.emptied.refill f s.memory
      some (s.put j (if r.threw then none else some r.container) r.memory)

def moveConstruct (s : Family T P ι) (i j : ι) : Option (Family T P ι) :=
  (s.containers i).bind fun c =>
    match s.containers j with
    | some _ => none
    | none => some (s.take i j c)

def moveAssign (s : Family T P ι) (i j : ι) : Option (Family T P ι) :=
  (release s j).bind fun s => (s.containers i).map fun c => s.take i j c

def swap (s : Family T P ι) (i j : ι) : Option (Family T P ι) :=
  (s.containers i).bind fun c => (s.containers j).map fun d =>
    (s.put i (some d) s.memory).put j (some c) s.memory

def next (s : Family T P ι) : Action ι → Option (Family T P ι)
  | .construct i provider => construct s i ⟨⟨provider⟩, 0, 0⟩
  | .destroy i => (s.containers i).map fun c => s.put i none (c.drain s.memory)
  | .copyConstruct i j fill => copyConstruct s i j fill
  | .moveConstruct i j => moveConstruct s i j
  | .copyAssign i j fill =>
    (s.containers i).bind fun _ =>
      match fill with
      | none => (s.containers j).map fun _ => s
      | some f => refill s j f
  | .moveAssign i j => moveAssign s i j
  | .swap i j => swap s i j
  | .refill i f => refill s i f
  | .release i => release s i
  | .change c => some { s with memory := s.memory.change [c] }

end

section
variable {sizeMax : ℕ} {T : ElementType sizeMax} {P : MemoryPolicy}

/-- A container with storage has committed to a provider. -/
def Container.Sound (c : Container T P) : Prop :=
  c.pointer ≠ 0 → c.allocator.isProviderBound = true

/-- The storage, as a block of the provider that the allocator is bound to. -/
def Container.blocks (c : Container T P) : Multiset Block :=
  storageBlocks T P (c.allocator.provider.getD defaultProvider) c.pointer c.count

theorem emptied_blocks (c : Container T P) : c.emptied.blocks = 0 := storageBlocks_null _ _

theorem emptied_sound (c : Container T P) : c.emptied.Sound := fun h => absurd rfl h

theorem Container.Sound.bound {c : Container T P} (h : c.Sound) (hpointer : c.pointer ≠ 0) :
    c.allocator.provider = some (c.allocator.provider.getD defaultProvider) := by
  have hbound := h hpointer
  unfold Allocator.isProviderBound at hbound
  obtain ⟨p, hp⟩ := Option.isSome_iff_exists.mp hbound
  rw [hp]
  rfl

theorem drain_outstanding {c : Container T P} {m : Memory} {rest : Multiset Block} (h : c.Sound)
    (ho : outstanding m.calls = some (c.blocks + rest)) : outstanding (c.drain m).calls = some rest :=
  deallocate_outstanding h.bound ho

theorem rebound {c : Container T P} (hc : c.Sound) {a : Allocator T P}
    (kept : ∀ q, c.allocator.provider = some q → a.provider = some q) :
    ({ c with allocator := a } : Container T P).Sound ∧
      ({ c with allocator := a } : Container T P).blocks = c.blocks := by
  by_cases hpointer : c.pointer = 0
  · refine ⟨fun h => absurd hpointer h, ?_⟩
    simp only [Container.blocks, hpointer, storageBlocks_null]
  · have hp := hc.bound hpointer
    have ha := kept _ hp
    refine ⟨fun _ => ?_, ?_⟩
    · simp only [Allocator.isProviderBound, ha, Option.isSome_some]
    · simp only [Container.blocks, ha, Option.getD_some]

section
variable {c : Container T P} {f : Fill} {m : Memory} {r : Allocated T P}

theorem refill_error (h : c.allocator.allocate f.count f.between f.answer m = r)
    {e : AllocationError} (he : r.result = .error e) :
    c.refill f m = ⟨{ c with allocator := r.allocator }, r.memory, true⟩ := by
  subst h
  simp only [Container.refill, he]

theorem refill_completed (h : c.allocator.allocate f.count f.between f.answer m = r)
    {pointer : ℕ} (hp : r.result = .ok pointer) (hf : f.completes = true) :
    c.refill f m = ⟨⟨r.allocator, pointer, f.count⟩,
      r.allocator.deallocate c.pointer c.count (r.memory.change f.during), false⟩ := by
  subst h
  simp only [Container.refill, hp, hf, if_true]

theorem refill_undone (h : c.allocator.allocate f.count f.between f.answer m = r)
    {pointer : ℕ} (hp : r.result = .ok pointer) (hf : f.completes = false) :
    c.refill f m = ⟨{ c with allocator := r.allocator },
      r.allocator.deallocate pointer f.count (r.memory.change f.during), true⟩ := by
  subst h
  simp only [Container.refill, hp, hf, Bool.false_eq_true, if_false]

theorem refill_spec {rest : Multiset Block} (hc : c.Sound)
    (ho : outstanding m.calls = some (c.blocks + rest)) :
    (c.refill f m).container.Sound ∧
      outstanding (c.refill f m).memory.calls = some ((c.refill f m).container.blocks + rest) := by
  obtain ⟨r, h⟩ : ∃ r, c.allocator.allocate f.count f.between f.answer m = r := ⟨_, rfl⟩
  have kept : ∀ q, c.allocator.provider = some q → r.allocator.provider = some q :=
    fun q hq => h ▸ allocate_bound hq f.count f.between f.answer m
  obtain ⟨sound, same⟩ := rebound hc kept
  cases hr : r.result with
  | error e =>
    have hout := allocate_error (h ▸ hr) ho
    rw [h] at hout
    rw [refill_error h hr]
    exact ⟨sound, by rw [same]; exact hout⟩
  | ok pointer =>
    obtain ⟨p, hp, hout⟩ := allocate_ok (h ▸ hr) ho
    rw [h] at hp hout
    cases hf : f.completes with
    | true =>
      rw [refill_completed h hr hf]
      refine ⟨fun _ => ?_, ?_⟩
      · simp only [Allocator.isProviderBound, hp, Option.isSome_some]
      · refine deallocate_outstanding (fun hpointer => kept _ (hc.bound hpointer)) ?_
        rw [change_calls, hout, add_left_comm, Container.blocks, Container.blocks, hp]
        rfl
    | false =>
      rw [refill_undone h hr hf]
      refine ⟨sound, ?_⟩
      rw [same]
      exact deallocate_outstanding (fun _ => hp) hout

theorem refill_threw (ht : (c.refill f m).threw = true) :
    (c.refill f m).container.pointer = c.pointer := by
  obtain ⟨r, h⟩ : ∃ r, c.allocator.allocate f.count f.between f.answer m = r := ⟨_, rfl⟩
  cases hr : r.result with
  | error e => rw [refill_error h hr]
  | ok pointer =>
    cases hf : f.completes with
    | true =>
      rw [refill_completed h hr hf] at ht
      cases ht
    | false => rw [refill_undone h hr hf]

end

variable {ι : Type} [DecidableEq ι] [Fintype ι]

def blocksOf (s : Family T P ι) (i : ι) : Multiset Block := (s.containers i).elim 0 Container.blocks

/-- Every container is sound, and what is outstanding is what the containers hold. -/
structure Invariant (s : Family T P ι) : Prop where
  sound : ∀ i c, s.containers i = some c → c.Sound
  balanced : outstanding s.memory.calls = some (holdings (blocksOf s))

omit [Fintype ι] in
theorem blocksOf_put (s : Family T P ι) (i : ι) (c : Option (Container T P)) (m : Memory) :
    blocksOf (s.put i c m) = Function.update (blocksOf s) i (c.elim 0 Container.blocks) :=
  Function.comp_update (fun d : Option (Container T P) => d.elim 0 Container.blocks) s.containers i c

omit [Fintype ι] in
theorem sound_put {s : Family T P ι} {i : ι} {c : Option (Container T P)} {m : Memory}
    (hs : ∀ j d, s.containers j = some d → d.Sound) (hc : ∀ d, c = some d → d.Sound) :
    ∀ j d, (s.put i c m).containers j = some d → d.Sound :=
  (Function.forall_update_iff s.containers fun _ e => ∀ d, e = some d → d.Sound).mpr
    ⟨hc, fun j _ => hs j⟩

theorem put_invariant {s : Family T P ι} (hs : Invariant s) {i : ι} {c : Option (Container T P)}
    {m : Memory} (hc : ∀ d, c = some d → d.Sound)
    (hm : ∀ rest, outstanding s.memory.calls = some (blocksOf s i + rest) →
      outstanding m.calls = some (c.elim 0 Container.blocks + rest)) :
    Invariant (s.put i c m) := by
  obtain ⟨rest, htotal, hupdate⟩ := holdings_split (blocksOf s) i
  refine ⟨sound_put hs.sound hc, ?_⟩
  rw [blocksOf_put, hupdate]
  exact hm rest (htotal ▸ hs.balanced)

omit [DecidableEq ι] [Fintype ι] in
theorem blocksOf_some {s : Family T P ι} {i : ι} {c : Container T P} (h : s.containers i = some c) :
    blocksOf s i = c.blocks := by
  simp only [blocksOf, h, Option.elim_some]

omit [DecidableEq ι] [Fintype ι] in
theorem blocksOf_none {s : Family T P ι} {i : ι} (h : s.containers i = none) : blocksOf s i = 0 := by
  simp only [blocksOf, h, Option.elim_none]

theorem Invariant.member {s : Family T P ι} (hs : Invariant s) {i : ι} {c : Container T P}
    (hc : s.containers i = some c) :
    ∃ rest, outstanding s.memory.calls = some (c.blocks + rest) := by
  obtain ⟨rest, htotal, _⟩ := holdings_split (blocksOf s) i
  rw [blocksOf_some hc] at htotal
  exact ⟨rest, htotal ▸ hs.balanced⟩

theorem release_invariant {s t : Family T P ι} {i : ι} (hs : Invariant s)
    (h : release s i = some t) :
    Invariant t ∧ ∃ c : Container T P, t.containers i = some c.emptied := by
  obtain ⟨c, hc, rfl⟩ := Option.map_eq_some_iff.mp h
  refine ⟨put_invariant hs ?_ ?_, c, Function.update_self _ _ _⟩
  · intro d hd
    rw [← Option.some.inj hd]
    exact emptied_sound c
  · intro rest ho
    rw [blocksOf_some hc] at ho
    rw [Option.elim_some, emptied_blocks, zero_add]
    exact drain_outstanding (hs.sound i c hc) ho

theorem refill_invariant {s t : Family T P ι} {i : ι} {f : Fill} (hs : Invariant s)
    (h : refill s i f = some t) : Invariant t := by
  obtain ⟨c, hc, rfl⟩ := Option.map_eq_some_iff.mp h
  refine put_invariant hs ?_ ?_
  · intro d hd
    obtain ⟨rest, start⟩ := hs.member hc
    rw [← Option.some.inj hd]
    exact (refill_spec (hs.sound i c hc) start).1
  · intro rest ho
    rw [blocksOf_some hc] at ho
    exact (refill_spec (hs.sound i c hc) ho).2

theorem construct_invariant {s t : Family T P ι} {i : ι} {c : Container T P} (hs : Invariant s)
    (hempty : c.pointer = 0) (h : construct s i c = some t) : Invariant t := by
  unfold construct at h
  split at h
  · cases h
  · rename_i vacant
    rw [← Option.some.inj h]
    refine put_invariant hs ?_ ?_
    · intro d hd
      rw [← Option.some.inj hd]
      exact fun hpointer => absurd hempty hpointer
    · intro rest ho
      rw [blocksOf_none vacant] at ho
      rw [Option.elim_some, Container.blocks, hempty, storageBlocks_null]
      exact ho

theorem destroy_invariant {s : Family T P ι} {i : ι} {c : Container T P} (hs : Invariant s)
    (hc : s.containers i = some c) : Invariant (s.put i none (c.drain s.memory)) := by
  refine put_invariant hs nofun ?_
  intro rest ho
  rw [blocksOf_some hc] at ho
  rw [Option.elim_none, zero_add]
  exact drain_outstanding (hs.sound i c hc) ho

theorem copyConstruct_invariant {s t : Family T P ι} {i j : ι} {fill : Option Fill}
    (hs : Invariant s) (h : copyConstruct s i j fill = some t) : Invariant t := by
  obtain ⟨c, hc, hcopy⟩ := Option.bind_eq_some_iff.mp h
  cases hj : s.containers j with
  | some d => simp [hj] at hcopy
  | none =>
    cases fill with
    | none =>
      have hmake : construct s j c.emptied = some t := by
        simp only [hj] at hcopy
        simp only [construct, hj]
        exact hcopy
      exact construct_invariant hs rfl hmake
    | some f =>
      simp only [hj, Option.some.injEq] at hcopy
      subst hcopy
      obtain ⟨rest, start⟩ : ∃ rest, outstanding s.memory.calls = some (c.emptied.blocks + rest) :=
        ⟨_, by rw [emptied_blocks, zero_add]; exact hs.balanced⟩
      refine put_invariant hs ?_ ?_
      · intro d hd
        split at hd
        · cases hd
        · rw [← Option.some.inj hd]
          exact (refill_spec (emptied_sound c) start).1
      · intro rest ho
        rw [blocksOf_none hj, ← emptied_blocks c] at ho
        have spec := (refill_spec (f := f) (emptied_sound c) ho).2
        split
        · rename_i threw
          have null := refill_threw threw
          rw [Container.blocks, null] at spec
          rw [Option.elim_none]
          exact storageBlocks_null (T := T) (P := P) _ _ ▸ spec
        · exact spec

theorem take_invariant {s : Family T P ι} {i j : ι} {c : Container T P} (hs : Invariant s)
    (hc : s.containers i = some c) (hempty : blocksOf s j = 0) : Invariant (s.take i j c) := by
  refine ⟨?_, ?_⟩
  · have first : ∀ k d, (s.put i (some c.emptied) s.memory).containers k = some d → d.Sound :=
      sound_put hs.sound fun d hd => Option.some.inj hd ▸ emptied_sound c
    exact sound_put first fun d hd => Option.some.inj hd ▸ hs.sound i c hc
  · have total : holdings (blocksOf (s.take i j c)) = holdings (blocksOf s) := by
      unfold Family.take
      rw [blocksOf_put, blocksOf_put, Option.elim_some, Option.elim_some, emptied_blocks,
        ← blocksOf_some hc]
      have hself : i = j → blocksOf s i = 0 := fun hij => hij ▸ hempty
      have taken := holdings_take (blocksOf s) hself
      rw [hempty, zero_add] at taken
      exact taken.symm
    rw [total]
    exact hs.balanced

theorem swap_invariant {s t : Family T P ι} {i j : ι} (hs : Invariant s) (h : swap s i j = some t) :
    Invariant t := by
  obtain ⟨c, hc, hrest⟩ := Option.bind_eq_some_iff.mp h
  obtain ⟨d, hd, rfl⟩ := Option.map_eq_some_iff.mp hrest
  refine ⟨?_, ?_⟩
  · have first : ∀ k e, (s.put i (some d) s.memory).containers k = some e → e.Sound :=
      sound_put hs.sound fun e he => Option.some.inj he ▸ hs.sound j d hd
    exact sound_put first fun e he => Option.some.inj he ▸ hs.sound i c hc
  · have total : holdings (blocksOf ((s.put i (some d) s.memory).put j (some c) s.memory)) =
        holdings (blocksOf s) := by
      rw [blocksOf_put, blocksOf_put, Option.elim_some, Option.elim_some, ← blocksOf_some hc,
        ← blocksOf_some hd]
      exact holdings_swap (blocksOf s) i j
    rw [total]
    exact hs.balanced

theorem moveConstruct_invariant {s t : Family T P ι} {i j : ι} (hs : Invariant s)
    (h : moveConstruct s i j = some t) : Invariant t := by
  obtain ⟨c, hc, hrest⟩ := Option.bind_eq_some_iff.mp h
  split at hrest
  · cases hrest
  · rename_i vacant
    rw [← Option.some.inj hrest]
    exact take_invariant hs hc (blocksOf_none vacant)

theorem moveAssign_invariant {s t : Family T P ι} {i j : ι} (hs : Invariant s)
    (h : moveAssign s i j = some t) : Invariant t := by
  obtain ⟨u, hu, hrest⟩ := Option.bind_eq_some_iff.mp h
  obtain ⟨c, hc, rfl⟩ := Option.map_eq_some_iff.mp hrest
  obtain ⟨released, d, hd⟩ := release_invariant hs hu
  exact take_invariant released hc ((blocksOf_some hd).trans (emptied_blocks d))

theorem step_invariant {s t : Family T P ι} {a : Action ι} (hs : Invariant s)
    (h : next s a = some t) : Invariant t := by
  cases a with
  | construct i provider => exact construct_invariant hs rfl h
  | destroy i =>
    obtain ⟨c, hc, rfl⟩ := Option.map_eq_some_iff.mp h
    exact destroy_invariant hs hc
  | copyConstruct i j fill => exact copyConstruct_invariant hs h
  | moveConstruct i j => exact moveConstruct_invariant hs h
  | copyAssign i j fill =>
    obtain ⟨c, _, hrest⟩ := Option.bind_eq_some_iff.mp h
    cases fill with
    | none =>
      obtain ⟨d, _, rfl⟩ := Option.map_eq_some_iff.mp hrest
      exact hs
    | some f => exact refill_invariant hs hrest
  | moveAssign i j => exact moveAssign_invariant hs h
  | swap i j => exact swap_invariant hs h
  | refill i f => exact refill_invariant hs h
  | release i => exact (release_invariant hs h).1
  | change c =>
    rw [← Option.some.inj h]
    exact ⟨hs.sound, hs.balanced⟩

omit [DecidableEq ι] in
theorem initial_invariant (slot : ProviderSlot) : Invariant (initial T P ι slot) := by
  refine ⟨nofun, ?_⟩
  have none_held : holdings (blocksOf (initial T P ι slot)) = 0 := holdings_empty
  rw [none_held]
  rfl

/-- A container with storage is bound to the provider that supplied it, and every release
goes back there. -/
theorem containers_return_storage (T : ElementType sizeMax) (P : MemoryPolicy) (slot : ProviderSlot)
    {as : List (Action ι)} {s : Family T P ι} (h : run next (initial T P ι slot) as = some s) :
    (∀ i c, s.containers i = some c → c.pointer ≠ 0 →
      ∃ p, c.allocator.provider = some p ∧
        ⟨request T P p c.count, c.pointer⟩ ∈ holdings (blocksOf s)) ∧
    outstanding s.memory.calls = some (holdings (blocksOf s)) ∧
    ∀ before block after, s.memory.calls = before ++ .deallocate block :: after →
      releases block (blockEntries before) < acquisitions block (blockEntries before) := by
  have hs : Invariant s := invariant_of_run (fun _ _ _ => step_invariant) (initial_invariant slot) h
  refine ⟨?_, hs.balanced, fun _ _ _ => deallocate_after_allocate hs.balanced⟩
  intro i c hc hpointer
  refine ⟨_, (hs.sound i c hc).bound hpointer, ?_⟩
  obtain ⟨rest, htotal, _⟩ := holdings_split (blocksOf s) i
  rw [htotal, blocksOf_some hc, Container.blocks, storageBlocks, if_neg hpointer]
  exact Multiset.mem_add.mpr (.inl (Multiset.mem_singleton_self _))

/-- A container binds and allocates while the provider changes, and is moved and emptied later. -/
def moved : List (Action Bool) :=
  [.construct false none,
    .refill false ⟨8, [.setProvider (some 2)], .pointer 64, [.setProvider (some 3)], true⟩,
    .refill false ⟨16, [], .pointer 128, [], true⟩, .moveConstruct false true, .change .resetProvider,
    .release true]

theorem containers_return_storage_moved :
    ∃ s, run next (initial wordType .externalPreferred Bool (some 1)) moved = some s ∧
      outstanding s.memory.calls = some (holdings (blocksOf s)) ∧
      s.memory.calls =
        [.allocate ⟨1, 32, 4, .externalPreferred⟩ (.pointer 64),
          .allocate ⟨1, 64, 4, .externalPreferred⟩ (.pointer 128),
          .deallocate ⟨⟨1, 32, 4, .externalPreferred⟩, 64⟩,
          .deallocate ⟨⟨1, 64, 4, .externalPreferred⟩, 128⟩] := by
  have completes : run next (initial wordType .externalPreferred Bool (some 1)) moved = some _ := rfl
  exact ⟨_, completes, (containers_return_storage wordType .externalPreferred (some 1) completes).2.1,
    by decide +kernel⟩

end

end ESPressioSystem.ContainerStorage
