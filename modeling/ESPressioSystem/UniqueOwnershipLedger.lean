import ESPressioSystem.UniqueOwnershipPairing

set_option autoImplicit false

/-!
# What is outstanding is what the pointers own
-/
namespace ESPressioSystem.UniqueOwnership
open Transition Ledger MemoryProvider MemoryAllocator

section
variable {sizeMax : ℕ} {ι : Type} [DecidableEq ι]

theorem owning_update {cells : ι → Option (OwningPointer sizeMax)} (h : Owning cells) {i : ι}
    {p : Option (OwningPointer sizeMax)}
    (hp : ∀ q, p = some q → q.pointer ≠ 0 → q.destruction.isSome) :
    Owning (Function.update cells i p) :=
  (Function.forall_update_iff cells fun _ e =>
    ∀ q, e = some q → q.pointer ≠ 0 → q.destruction.isSome).mpr ⟨hp, fun j _ => h j⟩

theorem owning_null {cells : ι → Option (OwningPointer sizeMax)} (h : Owning cells) (i : ι)
    {p : OwningPointer sizeMax} (empty : p.pointer = 0) :
    Owning (Function.update cells i (some p)) :=
  owning_update h fun q hq hpointer => by
    rw [← Option.some.inj hq] at hpointer
    exact absurd empty hpointer

variable [Fintype ι]

theorem total_put_same {κ : Type} (f : Destruction sizeMax → κ)
    {cells : ι → Option (OwningPointer sizeMax)} {i : ι} {p : Option (OwningPointer sizeMax)}
    (h : p.elim 0 (OwningPointer.holding f) = held f cells i) :
    holdings (held f (Function.update cells i p)) = holdings (held f cells) := by
  rw [held_update, h, Function.update_eq_self]

theorem total_put_less {κ : Type} (f : Destruction sizeMax → κ)
    (cells : ι → Option (OwningPointer sizeMax)) (i : ι) {p : Option (OwningPointer sizeMax)}
    (hp : p.elim 0 (OwningPointer.holding f) = 0) :
    holdings (held f cells) = held f cells i + holdings (held f (Function.update cells i p)) := by
  obtain ⟨rest, htotal, hupdate⟩ := holdings_split (held f cells) i
  rw [held_update, hp, hupdate, htotal, zero_add]

theorem total_put_more {κ : Type} (f : Destruction sizeMax → κ)
    {cells : ι → Option (OwningPointer sizeMax)} {i : ι} (vacant : held f cells i = 0)
    (p : OwningPointer sizeMax) :
    holdings (held f (Function.update cells i (some p))) = p.holding f + holdings (held f cells) := by
  obtain ⟨rest, htotal, hupdate⟩ := holdings_split (held f cells) i
  rw [held_update, hupdate, Option.elim_some, htotal, vacant, zero_add]

theorem total_swap {κ : Type} (f : Destruction sizeMax → κ)
    {cells : ι → Option (OwningPointer sizeMax)} {i j : ι} {p q : OwningPointer sizeMax}
    (hp : p.holding f = held f cells i) (hq : q.holding f = held f cells j) :
    holdings (held f (Function.update (Function.update cells i (some q)) j (some p))) =
      holdings (held f cells) := by
  rw [held_update, held_update, Option.elim_some, Option.elim_some, hp, hq]
  exact holdings_swap (held f cells) i j

theorem total_take {κ : Type} (f : Destruction sizeMax → κ)
    {cells : ι → Option (OwningPointer sizeMax)} {i j : ι} {p r : OwningPointer sizeMax}
    (hp : p.holding f = held f cells i) (empty : r.pointer = 0) (hij : i ≠ j) :
    holdings (held f cells) = held f cells j +
      holdings (held f (Function.update (Function.update cells i (some r)) j (some p))) := by
  rw [held_update, held_update, Option.elim_some, Option.elim_some, null_holding f empty, hp]
  exact holdings_take (held f cells) fun same => absurd same hij

/-- The two ledgers agree with the pointers and with the constructors and destructors that run. -/
structure Invariant (s : State sizeMax ι) : Prop where
  storage : ∀ c, .constructing c ∈ s.stack → c.storage ≠ 0
  blocks : outstanding s.memory.calls =
    some (holdings (held Destruction.block s.owned) + inFlight s.deleter s.stack)
  objects : run plain 0 s.lifetimes = some (holdings (held Destruction.object s.owned))
  owning : Owning s.owned
  used : ∀ k ∈ s.inUse, (s.deleter k).isSome
  found : ∀ d, .destroying d ∈ s.stack → (d.origin.provider s.deleter).isSome
  nested : s.stack.Pairwise (Agree s.deleter)

variable {s t : State sizeMax ι} {i j : ι} {p q : OwningPointer sizeMax}

theorem Invariant.vacant (hs : Invariant s) (hi : s.cells i = none) : i ∉ s.inUse := by
  intro hk
  have present := hs.used i hk
  rw [State.deleter, hi] at present
  cases present

omit [DecidableEq ι] [Fintype ι] in
theorem agree_congr {deleter deleter' : ι → Option (Deleter sizeMax)}
    {stack : List (Frame sizeMax ι)} (same : ∀ k ∈ stack.flatMap Frame.uses, deleter' k = deleter k)
    (nested : stack.Pairwise (Agree deleter)) : stack.Pairwise (Agree deleter') := by
  refine nested.imp_of_mem fun {f g} hf hg agree i k hk => ?_
  have use : ∀ {h : Frame sizeMax ι} {a}, h ∈ stack → a ∈ h.uses → deleter' a = deleter a :=
    fun hh ha => same _ (List.mem_flatMap.mpr ⟨_, hh, ha⟩)
  obtain ⟨hi, hkf⟩ := assignment_uses hk
  rw [use hf hi, use hf hkf]
  refine ⟨(agree i k hk).1, fun j hj => ?_⟩
  rw [use hg (assignment_uses hj).1]
  exact (agree i k hk).2 j hj

omit [DecidableEq ι] [Fintype ι] in
theorem found_congr {deleter deleter' : ι → Option (Deleter sizeMax)}
    {stack : List (Frame sizeMax ι)} (same : ∀ k ∈ stack.flatMap Frame.uses, deleter' k = deleter k)
    (found : ∀ d, .destroying d ∈ stack → (d.origin.provider deleter).isSome)
    (d : DeleterCall sizeMax ι) (hd : .destroying d ∈ stack) :
    (d.origin.provider deleter').isSome := by
  rw [provider_congr fun k hk => same k (List.mem_flatMap.mpr ⟨_, hd, hk⟩)]
  exact found d hd

/-- Pointers and deleters move, but what is owned stays the same. -/
theorem rearranged_invariant (hs : Invariant s) (steady : Steady s t)
    (hmemory : t.memory.calls = s.memory.calls) (hlifetimes : t.lifetimes = s.lifetimes)
    (hblocks : holdings (held Destruction.block (s.paired t.cells)) =
      holdings (held Destruction.block s.owned))
    (hobjects : holdings (held Destruction.object (s.paired t.cells)) =
      holdings (held Destruction.object s.owned))
    (howning : Owning (s.paired t.cells)) : Invariant t := by
  refine ⟨?_, ?_, ?_, ?_, ?_, ?_, ?_⟩
  · rw [steady.stack]
    exact hs.storage
  · rw [hmemory, steady.owned, hblocks, steady.inFlight]
    exact hs.blocks
  · rw [hlifetimes, steady.owned, hobjects]
    exact hs.objects
  · rw [steady.owned]
    exact howning
  · intro k hk
    rw [State.inUse, steady.stack] at hk
    rw [steady.deleters k hk]
    exact hs.used k hk
  · rw [steady.stack]
    exact found_congr steady.deleters hs.found
  · rw [steady.stack]
    exact agree_congr steady.deleters hs.nested

/-- One object is no longer owned, and its destructor runs. -/
theorem destroy_invariant {d : Destruction sizeMax} {origin : Origin ι}
    {assignment : Option (ι × ι)} (hs : Invariant s) (steady : Steady s t)
    (hmemory : t.memory = s.memory) (hlifetimes : t.lifetimes = s.lifetimes)
    (found : origin.provider t.deleter = some d.provider)
    (hblocks : holdings (held Destruction.block s.owned) =
      {d.block} + holdings (held Destruction.block (t.destroy d origin assignment).owned))
    (hobjects : holdings (held Destruction.object s.owned) =
      {d.object} + holdings (held Destruction.object (t.destroy d origin assignment).owned))
    (howning : Owning (t.destroy d origin assignment).owned)
    (used : ∀ k ∈ (Frame.destroying ⟨d.object, d.policy, origin, assignment⟩).uses,
      (t.deleter k).isSome)
    (agree : ∀ g ∈ s.stack, Agree t.deleter (.destroying ⟨d.object, d.policy, origin, assignment⟩) g) :
    Invariant (t.destroy d origin assignment) := by
  refine ⟨?_, ?_, ?_, howning, ?_, ?_, ?_⟩
  · intro c hc
    rcases List.mem_cons.mp hc with hd | hc
    · cases hd
    · rw [steady.stack] at hc
      exact hs.storage c hc
  · have block : Frame.block t.deleter (.destroying ⟨d.object, d.policy, origin, assignment⟩) =
        d.block := by
      simp only [Frame.block, found, Option.getD_some]
      rfl
    change outstanding t.memory.calls = some (_ + inFlight t.deleter (_ :: t.stack))
    rw [hmemory, hs.blocks, hblocks, inFlight_cons, block, steady.inFlight, Multiset.singleton_add,
      Multiset.cons_add, Multiset.add_cons]
  · change run plain 0 (t.lifetimes ++ [.release d.object]) = _
    rw [hlifetimes]
    refine run_trans _ hs.objects ((run_singleton _ _ _).trans ?_)
    rw [hobjects, Multiset.singleton_add, plain_release]
  · intro k hk
    change (t.deleter k).isSome
    rcases List.mem_append.mp (show k ∈ _ ++ t.stack.flatMap Frame.uses from hk) with hk | hk
    · exact used k hk
    · rw [steady.stack] at hk
      rw [steady.deleters k hk]
      exact hs.used k hk
  · intro e he
    rcases List.mem_cons.mp he with same | he
    · cases same
      exact Option.isSome_iff_exists.mpr ⟨d.provider, found⟩
    · rw [steady.stack] at he
      exact found_congr steady.deleters hs.found e he
  · change (_ :: t.stack).Pairwise (Agree t.deleter)
    rw [steady.stack]
    exact List.pairwise_cons.mpr ⟨agree, agree_congr steady.deleters hs.nested⟩

theorem make_invariant (hs : Invariant s) (maker : Maker sizeMax) (between : List ProviderChange)
    {answer : Answer} (hanswer : answer ≠ .pointer 0) : Invariant (make s maker between answer) := by
  have start : outstanding (s.memory.change between).calls =
      some (holdings (held Destruction.block s.owned) + inFlight s.deleter s.stack) := hs.blocks
  cases answer with
  | exception =>
    refine ⟨hs.storage, ?_, hs.objects, hs.owning, hs.used, hs.found, hs.nested⟩
    exact outstanding_allocate _ .exception start
  | pointer a =>
    have ha : a ≠ 0 := fun h => hanswer (h ▸ rfl)
    have same : (make s maker between (.pointer a)).owned = s.owned := by
      refine owned_paired (funext fun k => ?_)
      exact congrFun (awaited_silent s.deleter (f := .constructing _) rfl s.stack) k
    refine ⟨?_, ?_, ?_, same ▸ hs.owning, hs.used, ?_, ?_⟩
    · intro c hc
      rcases List.mem_cons.mp hc with hk | hc
      · cases hk
        exact ha
      · exact hs.storage c hc
    · have after := outstanding_allocate
        (objectRequest maker.type maker.policy (getProvider s.memory.slot)) (.pointer a) start
      rw [supplied_pointer _ ha, Option.elim_some] at after
      rw [same]
      exact after.trans (by rw [← Multiset.add_cons]; rfl)
    · rw [same]
      exact hs.objects
    · intro d hd
      rcases List.mem_cons.mp hd with hd | hd
      · cases hd
      · exact hs.found d hd
    · refine List.pairwise_cons.mpr ⟨fun g _ i k hk => ?_, hs.nested⟩
      cases hk

theorem constructed_invariant (hs : Invariant s) (h : constructed s i = some t) : Invariant t := by
  unfold constructed at h
  split at h
  · rename_i c stack hstack hcell
    rw [← Option.some.inj h]
    have unused := hs.vacant hcell
    have ha : c.storage ≠ 0 := hs.storage c (by rw [hstack]; exact List.mem_cons_self)
    have result := result_destruction c.maker c.provider ha
    have uses : s.inUse = stack.flatMap Frame.uses := by rw [State.inUse, hstack]; rfl
    have awaits : s.awaited = UniqueOwnership.awaited s.deleter stack := by
      funext k
      rw [State.awaited, hstack, awaited_silent _ rfl]
    let u : State sizeMax ι := { s with stack := stack }
    let v : State sizeMax ι := { s.put i (some (c.maker.result c.provider c.storage)) with
      lifetimes := s.lifetimes ++ [.acquire ⟨c.maker.type, c.storage⟩]
      stack := stack }
    have steady : Steady u v :=
      steady_put rfl (deleter_put s i _) fun hi => absurd (uses ▸ hi) unused
    have owned : v.owned = Function.update s.owned i (some (c.maker.result c.provider c.storage)) := by
      have moved := paired_update s s.cells i (some (c.maker.result c.provider c.storage))
      rw [Option.map_some, pair_unused unused] at moved
      exact (owned_paired (steady.awaited.trans awaits.symm)).trans moved
    have total : ∀ {κ : Type} (f : Destruction sizeMax → κ), holdings (held f v.owned) =
        {f ⟨⟨c.maker.type, c.storage⟩, c.maker.policy, c.provider⟩} + holdings (held f s.owned) := by
      intro κ f
      rw [owned, total_put_more f (held_vacant f hcell), holding_some f result]
    refine ⟨?_, ?_, ?_, ?_, ?_, ?_, ?_⟩
    · exact fun b hb => hs.storage b (hstack ▸ List.mem_cons_of_mem _ hb)
    · have flying : inFlight v.deleter v.stack = inFlight s.deleter stack := steady.inFlight
      refine hs.blocks.trans (congrArg some ?_)
      rw [total, hstack, inFlight_cons, flying, Multiset.singleton_add, Multiset.cons_add,
        Multiset.add_cons]
      rfl
    · rw [total, Multiset.singleton_add]
      exact run_trans _ hs.objects ((run_singleton _ _ _).trans (plain_acquire _ _))
    · rw [owned]
      refine owning_update hs.owning fun q hq _ => ?_
      rw [← Option.some.inj hq, result]
      rfl
    · intro k hk
      rw [steady.deleters k hk]
      exact hs.used k (uses ▸ hk)
    · exact found_congr steady.deleters fun d hd => hs.found d (hstack ▸ List.mem_cons_of_mem _ hd)
    · have nested := hs.nested
      rw [hstack] at nested
      exact agree_congr steady.deleters (List.pairwise_cons.mp nested).2
  · cases h

theorem null_invariant {type : PointerType sizeMax} (hs : Invariant s) (h : null s i type = some t) :
    Invariant t := by
  unfold null at h
  split at h
  · cases h
  · rename_i hcell
    rw [← Option.some.inj h]
    have empty : (type.null s.memory.slot).pointer = 0 := by cases type <;> rfl
    have owned : s.paired (s.put i (some (type.null s.memory.slot))).cells =
        Function.update s.owned i (some (s.pair i (type.null s.memory.slot))) :=
      paired_update s s.cells i _
    have total : ∀ {κ : Type} (f : Destruction sizeMax → κ),
        holdings (held f (s.paired (s.put i (some (type.null s.memory.slot))).cells)) =
          holdings (held f s.owned) := by
      intro κ f
      have nothing : (s.pair i (type.null s.memory.slot)).holding f = 0 := null_holding f empty
      rw [owned]
      exact total_put_same f (nothing.trans (held_vacant f hcell).symm)
    have steady : Steady s (s.put i (some (type.null s.memory.slot))) :=
      steady_put rfl (deleter_put s i _) fun hi => absurd hi (hs.vacant hcell)
    exact rearranged_invariant hs steady rfl rfl (total _) (total _)
      (owned ▸ owning_null hs.owning i empty)

theorem owned_cell (hs : Invariant s) (hp : s.cells i = some p) (h : s.Owns i → ¬ s.Mispaired i)
    (owns : p.pointer ≠ 0) : p.destruction.isSome := by
  have paired := pair_cell hp (h ⟨p, hp, owns⟩)
  refine hs.owning i p ?_ owns
  rw [State.owned, State.paired, hp, Option.map_some, paired]

theorem moveConstruct_invariant (hs : Invariant s) (respects : s.Owns i → ¬ s.Mispaired i)
    (h : moveConstruct s i j = some t) : Invariant t := by
  obtain ⟨p, hp, hrest⟩ := Option.bind_eq_some_iff.mp h
  split at hrest
  · cases hrest
  · rename_i hj
    rw [← Option.some.inj hrest]
    have hij : i ≠ j := by
      intro hij
      rw [hij, hj] at hp
      cases hp
    have unused := hs.vacant hj
    have owned : s.paired ((s.put i (some p.released)).put j (some p)).cells =
        Function.update (Function.update s.owned i (some (s.pair i p.released))) j (some p) := by
      rw [paired_put, pair_unused unused]
    have total : ∀ {κ : Type} (f : Destruction sizeMax → κ),
        holdings (held f (s.paired ((s.put i (some p.released)).put j (some p)).cells)) =
          holdings (held f s.owned) := by
      intro κ f
      rw [owned, total_take f (held_owned f hp respects).symm (r := s.pair i p.released) rfl hij,
        held_vacant f hj, zero_add]
    refine rearranged_invariant hs (steady_put rfl (moved_deleter hp j) fun hi => absurd hi unused)
      rfl rfl (total _) (total _) ?_
    rw [owned]
    refine owning_update (owning_null hs.owning i rfl) fun q hq hpointer => ?_
    rw [← Option.some.inj hq] at hpointer ⊢
    exact owned_cell hs hp respects hpointer

theorem swap_invariant (hs : Invariant s) (respects : Respectful s (.swap i j))
    (h : swap s i j = some t) : Invariant t := by
  obtain ⟨p, hp, hrest⟩ := Option.bind_eq_some_iff.mp h
  obtain ⟨q, hq, hswap⟩ := Option.bind_eq_some_iff.mp hrest
  split at hswap
  · rw [← Option.some.inj hswap]
    by_cases hij : i = j
    · subst hij
      obtain rfl := Option.some.inj (hp.symm.trans hq)
      have still : (s.put i (some p)).put i (some p) = s := by
        simp only [State.put, ← hp, Function.update_eq_self]
      rwa [still]
    · obtain ⟨hi, hj, same⟩ := respects hij
      have equal : i ∈ s.inUse ∨ j ∈ s.inUse → p.deleter = q.deleter :=
        fun used => equal_deleters hp hq (same used)
      have atI : s.pair i q = q := pair_given hi hp fun used => (equal (.inl used)).symm
      have atJ : s.pair j p = p := pair_given hj hq fun used => equal (.inr used)
      have owned : s.paired ((s.put i (some q)).put j (some p)).cells =
          Function.update (Function.update s.owned i (some q)) j (some p) := by
        rw [paired_put, atI, atJ]
      have total : ∀ {κ : Type} (f : Destruction sizeMax → κ),
          holdings (held f (s.paired ((s.put i (some q)).put j (some p)).cells)) =
            holdings (held f s.owned) := by
        intro κ f
        rw [owned]
        exact total_swap f (held_owned f hp fun _ => hi).symm (held_owned f hq fun _ => hj).symm
      have steady : Steady s ((s.put i (some q)).put j (some p)) := by
        refine ⟨rfl, fun k hk => ?_⟩
        rw [deleter_put, deleter_put]
        by_cases hkj : k = j
        · subst hkj
          rw [Function.update_self, Option.map_some, equal (.inr hk), ← deleter_cell hq]
        · rw [Function.update_of_ne hkj]
          by_cases hki : k = i
          · subst hki
            rw [Function.update_self, Option.map_some, ← equal (.inl hk), ← deleter_cell hp]
          · rw [Function.update_of_ne hki]
      refine rearranged_invariant hs steady rfl rfl (total _) (total _) ?_
      rw [owned]
      refine owning_update (owning_update hs.owning fun r hr hpointer => ?_) fun r hr hpointer => ?_
      · rw [← Option.some.inj hr] at hpointer ⊢
        exact owned_cell hs hq (fun _ => hj) hpointer
      · rw [← Option.some.inj hr] at hpointer ⊢
        exact owned_cell hs hp (fun _ => hi) hpointer
  · cases hswap

/-- A pointer gives up its object, whose destructor runs if there is one. -/
theorem relinquish_invariant (hs : Invariant s) (hp : s.cells i = some p)
    (respects : s.Owns i → ¬ s.Mispaired i) {r : Option (OwningPointer sizeMax)}
    (empty : ∀ q ∈ r, q.pointer = 0) (steady : Steady s (s.put i r))
    (origin : Destruction sizeMax → Origin ι)
    (found : ∀ d, p.destruction = some d →
      (origin d).provider (s.put i r).deleter = some d.provider)
    (used : ∀ d, ∀ k ∈ (origin d).uses, ((s.put i r).deleter k).isSome) :
    Invariant (match p.destruction with
      | some d => (s.put i r).destroy d (origin d) none
      | none => s.put i r) := by
  have owned : s.paired (s.put i r).cells = Function.update s.owned i (r.map (s.pair i)) :=
    paired_update s s.cells i r
  have total : ∀ {κ : Type} (f : Destruction sizeMax → κ), holdings (held f s.owned) =
      p.holding f + holdings (held f (s.paired (s.put i r).cells)) := by
    intro κ f
    rw [owned, ← held_owned f hp respects]
    refine total_put_less f s.owned i ?_
    cases r with
    | none => rfl
    | some q => exact null_holding f (p := s.pair i q) (empty q rfl)
  have owning : Owning (s.paired (s.put i r).cells) := by
    rw [owned]
    refine owning_update hs.owning fun q hq hpointer => ?_
    obtain ⟨p', hp', rfl⟩ := Option.map_eq_some_iff.mp hq
    exact absurd (empty p' hp') hpointer
  cases hd : p.destruction with
  | none =>
    simp only [holding_none _ hd, zero_add] at total
    exact rearranged_invariant hs steady rfl rfl (total _).symm (total _).symm owning
  | some d =>
    simp only [holding_some _ hd] at total
    have after : ((s.put i r).destroy d (origin d) none).owned = s.paired (s.put i r).cells := by
      refine owned_paired (funext fun k => ?_)
      exact (congrFun (awaited_silent _ (f := .destroying _) rfl _) k).trans
        (congrFun steady.awaited k)
    refine destroy_invariant hs steady rfl rfl (found d hd) (after ▸ total _) (after ▸ total _)
      (after ▸ owning) (fun k hk => used d k ?_) fun g _ a b hab => by cases hab
    have uses : Frame.uses (.destroying ⟨d.object, d.policy, origin d, none⟩) = (origin d).uses :=
      List.append_nil _
    exact uses ▸ hk

theorem reset_invariant (hs : Invariant s) (respects : s.Owns i → ¬ s.Mispaired i)
    (h : reset s i = some t) : Invariant t := by
  obtain ⟨p, hp, rfl⟩ := Option.map_eq_some_iff.mp h
  have deleters : (s.put i (some p.released)).deleter = s.deleter := deleter_put_same hp rfl
  refine relinquish_invariant hs hp respects (fun q hq => ?_) ⟨rfl, fun k _ => by rw [deleters]⟩
    (fun d => p.deleter.origin i d.provider) (fun d hd => ?_) fun d k hk => ?_
  · rw [← Option.some.inj hq]
    rfl
  · rw [deleters]
    exact origin_provider hp hd
  · rw [deleters, origin_uses hk, deleter_cell hp]
    rfl

theorem drop_invariant (hs : Invariant s) (h : drop s i = some t) : Invariant t := by
  unfold drop at h
  split at h
  · cases h
  · rename_i unused
    obtain ⟨p, hp, rfl⟩ := Option.map_eq_some_iff.mp h
    have alone : s.Owns i → ¬ s.Mispaired i := fun _ ⟨d, hd, _⟩ => unused (awaited_used hd)
    have steady : Steady s (s.put i none) :=
      steady_put rfl (deleter_put s i none) fun hi => absurd hi unused
    exact relinquish_invariant hs hp alone (fun q hq => by cases hq) steady
      (fun d => .passed d.provider) (fun d _ => rfl) fun d k hk => by cases hk

/-- What the innermost assignment has still to move is what the outer ones have. -/
theorem agree_push (hs : Invariant s) (paired : ¬ s.Mispaired j)
    (same : j ∈ s.inUse → s.deleter i = s.deleter j) {f g : Frame sizeMax ι}
    (hf : f.assignment = some (i, j)) (hg : g ∈ s.stack) : Agree s.deleter f g := by
  intro a k hak
  obtain ⟨rfl, rfl⟩ := Prod.mk.inj (Option.some.inj (hf.symm.trans hak))
  refine ⟨fun hk => same (List.mem_flatMap.mpr ⟨g, hg, hk⟩), fun b hb => ?_⟩
  have source : (s.stack.findSome? (Frame.source j)).isSome := by
    refine List.findSome?_isSome_iff.mpr ⟨g, hg, ?_⟩
    simp [Frame.source, hb]
  obtain ⟨c, hc⟩ := Option.isSome_iff_exists.mp source
  obtain ⟨d, hd⟩ := Option.isSome_iff_exists.mp (hs.used c (source_mem hc).1)
  have awaits : UniqueOwnership.awaited s.deleter s.stack j = some d := by
    rw [UniqueOwnership.awaited, hc, Option.bind_some, hd]
  have has : s.deleter j = some d := by
    by_contra other
    exact paired ⟨d, awaits, other⟩
  exact agree_awaited hs.nested awaits has hg hb

theorem moveAssign_invariant (hs : Invariant s) (respects : Respectful s (.moveAssign i j))
    (h : moveAssign s i j = some t) : Invariant t := by
  obtain ⟨p, hp, hrest⟩ := Option.bind_eq_some_iff.mp h
  obtain ⟨q, hq, hassign⟩ := Option.bind_eq_some_iff.mp hrest
  split at hassign
  · rw [← Option.some.inj hassign]
    exact hs
  · rename_i hij
    obtain ⟨hi, hj, same⟩ := respects hij
    split at hassign
    · have total : ∀ {κ : Type} (f : Destruction sizeMax → κ), holdings (held f s.owned) =
          q.holding f + holdings (held f
            (Function.update (Function.update s.owned i (some (s.pair i p.released))) j (some p))) := by
        intro κ f
        rw [← held_owned f hq fun _ => hj]
        exact total_take f (held_owned f hp hi).symm (r := s.pair i p.released) rfl hij
      have owning : Owning
          (Function.update (Function.update s.owned i (some (s.pair i p.released))) j (some p)) := by
        refine owning_update (owning_null hs.owning i rfl) fun r hr hpointer => ?_
        rw [← Option.some.inj hr] at hpointer ⊢
        exact owned_cell hs hp hi hpointer
      cases hd : q.destruction with
      | none =>
        simp only [hd, moveDeleter_moved hij, Option.some.injEq] at hassign
        rw [← hassign]
        have given : s.pair j p = p :=
          pair_given hj hq fun used => equal_deleters hp hq (same used)
        have owned : s.paired ((s.put i (some p.released)).put j (some p)).cells = Function.update
            (Function.update s.owned i (some (s.pair i p.released))) j (some p) := by
          rw [paired_put, given]
        have deleters := moved_deleter hp j
        simp only [holding_none _ hd, zero_add] at total
        exact rearranged_invariant hs
          (steady_put rfl deleters fun hk => (deleter_cell hp).symm.trans (same hk)) rfl rfl
          (owned ▸ (total _).symm) (owned ▸ (total _).symm) (owned ▸ owning)
      | some d =>
        simp only [hd, Option.some.injEq] at hassign
        rw [← hassign]
        have deleters := movePointer_deleter hij hp hq
        have owned := assigned_owned hij hp hq d (q.deleter.origin j d.provider)
        simp only [holding_some _ hd] at total
        refine destroy_invariant hs ⟨rfl, fun k _ => by rw [deleters]⟩ rfl rfl
          (deleters ▸ origin_provider hq hd) (owned ▸ total _) (owned ▸ total _) (owned ▸ owning)
          (fun k hk => ?_) fun g hg => ?_
        · have place : k = j ∨ k = i := by
            rcases List.mem_append.mp hk with hk | hk
            · exact .inl (origin_uses hk)
            · simp only [Option.elim_some, List.mem_cons, List.not_mem_nil, or_false] at hk
              exact hk.symm
          rw [deleters]
          rcases place with rfl | rfl
          · rw [deleter_cell hq]
            rfl
          · rw [deleter_cell hp]
            rfl
        · rw [deleters]
          exact agree_push hs hj same rfl hg
    · cases hassign

/-- An operation ends by giving one block back. -/
theorem popped_invariant (hs : Invariant s) {f : Frame sizeMax ι} {stack : List (Frame sizeMax ι)}
    (hstack : s.stack = f :: stack) (tstack : t.stack = stack)
    (hmemory : t.memory = s.memory.deallocate (f.block s.deleter))
    (hlifetimes : t.lifetimes = s.lifetimes) (owned : t.owned = s.owned)
    (deleters : ∀ k ∈ stack.flatMap Frame.uses, t.deleter k = s.deleter k) : Invariant t := by
  have nested := hs.nested
  rw [hstack] at nested
  refine ⟨?_, ?_, ?_, owned ▸ hs.owning, ?_, ?_, ?_⟩
  · rw [tstack]
    exact fun c hc => hs.storage c (hstack ▸ List.mem_cons_of_mem _ hc)
  · rw [hmemory, owned, tstack, inFlight_congr deleters]
    refine outstanding_deallocate _ ?_
    rw [hs.blocks, hstack, inFlight_cons, Multiset.add_cons]
  · rw [hlifetimes, owned]
    exact hs.objects
  · intro k hk
    rw [State.inUse, tstack] at hk
    rw [deleters k hk]
    refine hs.used k ?_
    rw [State.inUse, hstack]
    exact List.mem_append_right _ hk
  · rw [tstack]
    exact found_congr deleters fun d hd => hs.found d (hstack ▸ List.mem_cons_of_mem _ hd)
  · rw [tstack]
    exact agree_congr deleters (List.pairwise_cons.mp nested).2

omit [Fintype ι] in
theorem owned_silent {f : Frame sizeMax ι} {stack : List (Frame sizeMax ι)}
    (hstack : s.stack = f :: stack) (silent : f.assignment = none) (tstack : t.stack = stack)
    (cells : t.cells = s.cells) : t.owned = s.owned := by
  have awaits : t.awaited = s.awaited := by
    funext k
    have deleters : t.deleter = s.deleter := by
      funext i
      simp only [State.deleter, cells]
    rw [State.awaited, State.awaited, hstack, tstack, awaited_silent _ silent, deleters]
  rw [owned_paired awaits, cells]
  rfl

theorem constructorThrew_invariant (hs : Invariant s) (h : constructorThrew s = some t) :
    Invariant t := by
  unfold constructorThrew at h
  split at h
  · rename_i c stack hstack
    rw [← Option.some.inj h]
    exact popped_invariant hs hstack rfl rfl rfl (owned_silent hstack rfl rfl rfl) fun _ _ => rfl
  · cases h

/-- The deleter is moved that was awaited, and the outer frames find what they have to. -/
theorem moveDeleter_invariant (hs : Invariant s) {d : DeleterCall sizeMax ι}
    {stack : List (Frame sizeMax ι)} (hstack : s.stack = .destroying d :: stack)
    (hd : d.assignment = some (i, j)) {m : Memory}
    (hmemory : m = s.memory.deallocate ((Frame.destroying d).block s.deleter)) :
    Invariant (State.moveDeleter { s with memory := m, stack := stack } i j) := by
  have moves : (Frame.destroying d).assignment = some (i, j) := hd
  have here : (Frame.destroying d) ∈ s.stack := by rw [hstack]; exact List.mem_cons_self
  have present : ∀ k ∈ (Frame.destroying d).uses, ∃ p, s.cells k = some p := by
    intro k hk
    have isSome := hs.used k (List.mem_flatMap.mpr ⟨_, here, hk⟩)
    rw [State.deleter, Option.isSome_map] at isSome
    exact Option.isSome_iff_exists.mp isSome
  obtain ⟨p, hp⟩ := present i (assignment_uses moves).1
  obtain ⟨q, hq⟩ := present j (assignment_uses moves).2
  have nested := hs.nested
  rw [hstack] at nested
  have outer := (List.pairwise_cons.mp nested).1
  have result : State.moveDeleter { s with memory := m, stack := stack } i j =
      State.put { s with memory := m, stack := stack } j (some { q with deleter := p.deleter }) := by
    simp only [State.moveDeleter, hp, hq]
  rw [result]
  have replaced : (State.put { s with memory := m, stack := stack } j
      (some { q with deleter := p.deleter })).deleter =
        Function.update s.deleter j (s.deleter i) := by
    rw [deleter_put, deleter_cell hp]
    rfl
  have deleters : ∀ k ∈ stack.flatMap Frame.uses, (State.put { s with memory := m, stack := stack } j
      (some { q with deleter := p.deleter })).deleter k = s.deleter k := by
    intro k hk
    rw [replaced]
    by_cases hkj : k = j
    · subst hkj
      obtain ⟨g, hg, used⟩ := List.mem_flatMap.mp hk
      rw [Function.update_self]
      exact (outer g hg i k moves).1 used
    · rw [Function.update_of_ne hkj]
  refine popped_invariant hs hstack rfl hmemory rfl (funext fun k => ?_) deleters
  have before := awaited_cons s.deleter moves stack
  have after : (State.put { s with memory := m, stack := stack } j
      (some { q with deleter := p.deleter })).awaited = UniqueOwnership.awaited s.deleter stack :=
    awaited_congr deleters
  rw [State.owned, State.owned, State.paired, State.paired]
  change Option.map _ (Function.update s.cells j _ k) = _
  by_cases hkj : k = j
  · subst hkj
    have awaits : s.awaited k = some p.deleter := by
      rw [State.awaited, hstack, before, Function.update_self, deleter_cell hp]
    rw [Function.update_self, Option.map_some, hq, Option.map_some]
    have whole : s.pair k q = { q with deleter := p.deleter } := by
      rw [State.pair, awaits, Option.getD_some]
    rw [whole]
    refine congrArg some (pair_same fun e he => ?_)
    rw [after] at he
    obtain ⟨b, hb, hbe⟩ := Option.bind_eq_some_iff.mp he
    obtain ⟨g, hg, hgb⟩ := List.exists_of_findSome?_eq_some hb
    obtain ⟨used, agreed⟩ := outer g hg i k moves
    have source := source_some hgb
    have chain : some p.deleter = some e := by
      calc
        some p.deleter = s.deleter i := (deleter_cell hp).symm
        _ = s.deleter k := used (assignment_uses source).2
        _ = s.deleter b := (agreed b source).symm
        _ = some e := hbe
    exact Option.some.inj chain
  · rw [Function.update_of_ne hkj]
    congr 1
    funext r
    rw [State.pair, State.pair, after, State.awaited, hstack, before, Function.update_of_ne hkj]

theorem destructed_invariant (hs : Invariant s) (h : destructed s = some t) : Invariant t := by
  unfold destructed at h
  split at h
  · rename_i d stack hstack
    obtain ⟨provider, hprovider, rfl⟩ := Option.map_eq_some_iff.mp h
    have block : (Frame.destroying d).block s.deleter =
        ⟨objectRequest d.object.type d.policy provider, d.object.address⟩ := by
      simp only [Frame.block, hprovider, Option.getD_some]
    cases hd : d.assignment with
    | none =>
      exact popped_invariant hs hstack rfl (by rw [block]) rfl (owned_silent hstack hd rfl rfl)
        fun _ _ => rfl
    | some move => exact moveDeleter_invariant hs hstack hd (by rw [block])
  · cases h

/-- `Allocate` returns a block or throws. -/
def AnswersProperly (_ : State sizeMax ι) : Action sizeMax ι → Prop
  | .make _ _ answer => answer ≠ .pointer 0
  | _ => True

instance (s : State sizeMax ι) : ∀ a, Decidable (AnswersProperly s a)
  | .make _ _ answer => inferInstanceAs (Decidable (answer ≠ .pointer 0))
  | .null _ _ | .constructed _ | .constructorThrew | .moveConstruct _ _ | .moveAssign _ _
  | .swap _ _ | .reset _ | .drop _ | .destructed | .change _ => isTrue trivial

theorem step_invariant {a : Action sizeMax ι} (hs : Invariant s)
    (ha : AnswersProperly s a) (respects : Respectful s a)
    (h : next s a = some t) : Invariant t := by
  cases a with
  | null i type => exact null_invariant hs h
  | make maker between answer =>
    rw [← Option.some.inj h]
    exact make_invariant hs maker between ha
  | constructed i => exact constructed_invariant hs h
  | constructorThrew => exact constructorThrew_invariant hs h
  | moveConstruct i j => exact moveConstruct_invariant hs respects h
  | moveAssign i j => exact moveAssign_invariant hs respects h
  | swap i j => exact swap_invariant hs respects h
  | reset i => exact reset_invariant hs respects h
  | drop i => exact drop_invariant hs h
  | destructed => exact destructed_invariant hs h
  | change c =>
    rw [← Option.some.inj h]
    exact ⟨hs.storage, hs.blocks, hs.objects, hs.owning, hs.used, hs.found, hs.nested⟩

theorem initial_invariant (slot : ProviderSlot) : Invariant (initial sizeMax ι slot) := by
  have empty : ∀ {κ : Type} (f : Destruction sizeMax → κ),
      holdings (held f (initial sizeMax ι slot).owned) = 0 := fun _ => holdings_empty
  refine ⟨fun c hc => (List.not_mem_nil hc).elim, ?_, ?_, fun i p hp => ?_,
    fun k hk => (List.not_mem_nil hk).elim, fun d hd => (List.not_mem_nil hd).elim,
    List.Pairwise.nil⟩
  · rw [empty]
    rfl
  · rw [empty]
    rfl
  · cases hp

theorem run_invariant {slot : ProviderSlot} {as : List (Action sizeMax ι)}
    (ha : Meets next AnswersProperly (initial sizeMax ι slot) as)
    (respects : Meets next Respectful (initial sizeMax ι slot) as)
    (h : run next (initial sizeMax ι slot) as = some s) : Invariant s :=
  invariant_of_meets (C := fun u a => AnswersProperly u a ∧ Respectful u a)
    (fun _ _ _ hu hi hstep => step_invariant hi hu.1 hu.2 hstep) (initial_invariant slot)
    (meets_and ha respects) h

/-- If no destructor interferes with the pointer whose reset or assignment runs it: outside an
operation exactly the owned objects' blocks are outstanding; every object made is destroyed once or
still owned, and every block goes back once, to where it came from. -/
theorem owned_objects_ledger (slot : ProviderSlot) {as : List (Action sizeMax ι)}
    {s : State sizeMax ι} (ha : Meets next AnswersProperly (initial sizeMax ι slot) as)
    (respects : Meets next Respectful (initial sizeMax ι slot) as)
    (h : run next (initial sizeMax ι slot) as = some s) :
    (s.stack = [] → s.owned = s.cells ∧
      outstanding s.memory.calls = some (holdings (held Destruction.block s.cells))) ∧
    (∀ i p, s.owned i = some p → p.pointer ≠ 0 → p.destruction.isSome) ∧
    (∀ o, (holdings (held Destruction.object s.owned)).count o + releases o s.lifetimes =
      acquisitions o s.lifetimes) ∧
    (∀ before o after, s.lifetimes = before ++ .release o :: after →
      releases o before < acquisitions o before) ∧
    (∀ b, (holdings (held Destruction.block s.owned) + inFlight s.deleter s.stack).count b +
      releases b (blockEntries s.memory.calls) = acquisitions b (blockEntries s.memory.calls)) ∧
    ∀ before block after, s.memory.calls = before ++ .deallocate block :: after →
      releases block (blockEntries before) < acquisitions block (blockEntries before) := by
  have hs := run_invariant ha respects h
  refine ⟨fun hstack => ⟨owned_idle hstack, ?_⟩, hs.owning, count_run_empty hs.objects, ?_,
    count_run_empty hs.blocks, fun _ _ _ => deallocate_after_allocate hs.blocks⟩
  · have blocks := hs.blocks
    rwa [hstack, inFlight_nil, add_zero, owned_idle hstack] at blocks
  · intro before o after hsplit
    have objects := hs.objects
    rw [hsplit] at objects
    exact release_lt_acquisitions objects

end

section

def partType : ObjectType 0xFFFFFFFF := ⟨1, wordType⟩
def wholeType : ObjectType 0xFFFFFFFF := ⟨2, 40, 8, by decide, by decide⟩

/-- A constructor makes a part, at the second attempt; a destructor resets it. The provider is
replaced twice in between. -/
def nested : List (Action 0xFFFFFFFF (Fin 3)) :=
  [.make (.polymorphic 7 wholeType .internal 8) [.setProvider (some 2)] (.pointer 64),
    .make (.unique partType .automatic) [] (.pointer 128), .constructorThrew,
    .make (.unique partType .automatic) [] (.pointer 128), .constructed 0,
    .change (.setProvider (some 3)), .constructed 1, .null 2 (.polymorphic 7), .swap 1 2,
    .moveAssign 1 2, .reset 0, .destructed, .destructed]

theorem nested_completes :
    (run next (initial 0xFFFFFFFF (Fin 3) (some 1)) nested).isSome := rfl

theorem owned_objects_ledger_nested :
    ∃ s, run next (initial 0xFFFFFFFF (Fin 3) (some 1)) nested = some s ∧
      outstanding s.memory.calls = some (holdings (held Destruction.block s.cells)) ∧
      s.memory.calls.getLast? = some (.deallocate ⟨⟨1, 40, 8, .internal⟩, 64⟩) := by
  have reached := (Option.some_get nested_completes).symm
  exact ⟨_, reached, ((owned_objects_ledger (some 1) (by decide +kernel) (by decide +kernel)
    reached).1 rfl).2, by decide +kernel⟩

/-- The destructor moves another object into the pointer that is being reset. -/
def replaced : List (Action 0xFFFFFFFF Bool) :=
  [.make (.unique partType .automatic) [] (.pointer 64), .constructed false,
    .change (.setProvider (some 2)), .make (.unique partType .automatic) [] (.pointer 128),
    .constructed true, .reset false, .moveAssign true false, .destructed]

theorem replaced_completes :
    (run next (initial 0xFFFFFFFF Bool (some 1)) replaced).isSome := rfl

/-- The first object's block comes from provider 1, and goes back to provider 2. -/
theorem owned_objects_ledger_replaced :
    ∃ s, Meets next AnswersProperly (initial 0xFFFFFFFF Bool (some 1)) replaced ∧
      run next (initial 0xFFFFFFFF Bool (some 1)) replaced = some s ∧ s.stack = [] ∧
      s.memory.calls =
        [.allocate ⟨1, 4, 4, .automatic⟩ (.pointer 64),
          .allocate ⟨2, 4, 4, .automatic⟩ (.pointer 128),
          .deallocate ⟨⟨2, 4, 4, .automatic⟩, 64⟩] ∧
      outstanding s.memory.calls ≠ some (holdings (held Destruction.block s.cells)) := by
  have reached := (Option.some_get replaced_completes).symm
  have astray : outstanding (Option.get _ replaced_completes).memory.calls = none := by
    decide +kernel
  refine ⟨_, by decide +kernel, reached, rfl, rfl, ?_⟩
  rw [astray]
  exact nofun

end

end ESPressioSystem.UniqueOwnership
