import ESPressioSystem.UniqueOwnership

set_option autoImplicit false

/-!
# What a failed allocation leaves behind
-/
namespace ESPressioSystem.AllocationFailure
open Transition Ledger MemoryProvider MemoryAllocator UniqueOwnership

structure Undisturbed (before after : Memory) : Prop where
  blocks : outstanding after.calls = outstanding before.calls
  releases : ∀ block, after.calls.count (.deallocate block) = before.calls.count (.deallocate block)

theorem undisturbed_refl (m : Memory) : Undisturbed m m := ⟨rfl, fun _ => rfl⟩

theorem undisturbed_refused (m : Memory) (changes : List ProviderChange) {request : Request}
    {answer : Answer} (h : supplied request answer = none) :
    Undisturbed m ((m.change changes).allocate request answer) := by
  refine ⟨?_, fun block => ?_⟩
  · unfold outstanding blockEntries
    rw [Memory.allocate, List.filterMap_append]
    simp only [List.filterMap_cons, callEntry, h, Option.map_none, List.filterMap_nil,
      List.append_nil, change_calls]
  · rw [Memory.allocate, List.count_append, change_calls]
    simp

section
variable {sizeMax : ℕ} {T : ElementType sizeMax} {P : MemoryPolicy}

/-- The count is too large, or the provider throws, or it returns null for a request that is
not empty. -/
def Fails (T : ElementType sizeMax) (count : ℕ) (answer : Answer) : Prop :=
  count > sizeMax / T.size ∨ answer = .exception ∨ (answer = .pointer 0 ∧ 0 < count)

structure AllocateIntact (a : Allocator T P) (m : Memory) (r : Allocated T P) : Prop where
  throws : ∃ e, r.result = .error e
  binding : r.allocator = a
  memory : Undisturbed m r.memory

theorem allocate_intact_iff {a : Allocator T P} {count : ℕ} {between : List ProviderChange}
    {answer : Answer} {m : Memory} (h : Fails T count answer) :
    AllocateIntact a m (a.allocate count between answer m) ↔
      count > sizeMax / T.size ∨ (answer = .exception ∧ a.isProviderBound = true) := by
  by_cases hcount : count > sizeMax / T.size
  · rw [allocate_oversized hcount]
    exact iff_of_true ⟨⟨_, rfl⟩, rfl, undisturbed_refl m⟩ (.inl hcount)
  · rcases h with oversized | rfl | ⟨rfl, _⟩
    · exact absurd oversized hcount
    · rw [allocate_exception hcount]
      have undisturbed : Undisturbed m ((m.change between).allocate
          (request T P (a.effectiveProvider m.slot) count) .exception) :=
        undisturbed_refused m between rfl
      obtain ⟨provider⟩ := a
      cases provider with
      | some p => exact iff_of_true ⟨⟨_, rfl⟩, rfl, undisturbed⟩ (.inr ⟨rfl, rfl⟩)
      | none =>
        refine iff_of_false (fun intact => ?_) (not_or.mpr ⟨hcount, fun bound => ?_⟩)
        · cases intact.binding
        · cases bound.2
    · rw [allocate_pointer hcount]
      refine iff_of_false (fun intact => ?_) (not_or.mpr ⟨hcount, fun thrown => ?_⟩)
      · obtain ⟨e, he⟩ := intact.throws
        cases he
      · cases thrown.1

variable {ι : Type}

structure MakeIntact (maker : Maker sizeMax) (between : List ProviderChange) (answer : Answer)
    (s : State sizeMax ι) : Prop where
  throws : ∃ e, (allocateStorage maker between answer s.memory).2 = .error e
  stack : (make s maker between answer).stack = s.stack
  memory : Undisturbed s.memory (make s maker between answer).memory

theorem make_intact_iff {maker : Maker sizeMax} {between : List ProviderChange} {answer : Answer}
    {s : State sizeMax ι} : MakeIntact maker between answer s ↔ answer = .exception := by
  cases answer with
  | exception => exact iff_of_true ⟨⟨_, rfl⟩, rfl, undisturbed_refused s.memory between rfl⟩ rfl
  | pointer address =>
    refine iff_of_false (fun intact => ?_) nofun
    obtain ⟨e, he⟩ := intact.throws
    cases he

/-- Which failed allocations leave everything as it was, for `Allocator::allocate`, `MakeUnique`
and `MakePolymorphicUnique`. -/
theorem failed_allocation_intact_iff (T : ElementType sizeMax) (P : MemoryPolicy) :
    (∀ (a : Allocator T P) (count : ℕ) (between : List ProviderChange) (answer : Answer) (m : Memory),
      Fails T count answer →
        (AllocateIntact a m (a.allocate count between answer m) ↔
          count > sizeMax / T.size ∨ (answer = .exception ∧ a.isProviderBound = true))) ∧
    ∀ (maker : Maker sizeMax) (between : List ProviderChange) (answer : Answer)
      (s : State sizeMax ι), answer.isBlock = false →
        (MakeIntact maker between answer s ↔ answer = .exception) :=
  ⟨fun _ _ _ _ _ h => allocate_intact_iff h, fun _ _ _ _ _ => make_intact_iff⟩

theorem failed_allocation_intact_bound :
    AllocateIntact (.boundTo 3 : Allocator wordType .internal) ⟨some 1, []⟩
      ((.boundTo 3 : Allocator wordType .internal).allocate 2 [.setProvider (some 4)] .exception
        ⟨some 1, []⟩) ∧
    MakeIntact (.polymorphic 7 ⟨2, wordType⟩ .internal 4) [] .exception
      (initial 0xFFFFFFFF Unit (some 1)) := by
  obtain ⟨forAllocate, forMake⟩ := failed_allocation_intact_iff (ι := Unit) wordType .internal
  exact ⟨(forAllocate _ 2 _ .exception _ (.inr (.inl rfl))).mpr (.inr ⟨rfl, rfl⟩),
    (forMake _ _ .exception _ rfl).mpr rfl⟩

/-- The default provider throws and keeps the allocator; a null pointer is built upon. -/
theorem failed_allocation_binds :
    ¬ AllocateIntact (.unbound : Allocator wordType .internal) ⟨initialSlot, []⟩
      ((.unbound : Allocator wordType .internal).allocate 2 [] .exception ⟨initialSlot, []⟩) ∧
    ((.unbound : Allocator wordType .internal).allocate 2 [] .exception
      ⟨initialSlot, []⟩).allocator.effectiveProvider (some 1) = defaultProvider ∧
    ¬ MakeIntact (.unique ⟨2, wordType⟩ .internal) [] (.pointer 0)
      (initial 0xFFFFFFFF Unit (some 1)) := by
  refine ⟨fun intact => ?_, by decide, fun intact => ?_⟩
  · have bound := congrArg Allocator.provider intact.binding
    exact absurd bound (by decide)
  · obtain ⟨e, he⟩ := intact.throws
    cases he

end

end ESPressioSystem.AllocationFailure
