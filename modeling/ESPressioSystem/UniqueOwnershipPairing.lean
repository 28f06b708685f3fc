import ESPressioSystem.UniqueOwnership

set_option autoImplicit false

/-!
# Which object belongs to which deleter

Between the two moves of a move assignment a pointer has its new object and still its old deleter.
-/
namespace ESPressioSystem.UniqueOwnership
open Transition Ledger MemoryProvider MemoryAllocator

section
variable {sizeMax : ℕ}

/-- One thing for the object that a pointer owns, and nothing if it owns none. -/
def OwningPointer.holding {κ : Type} (f : Destruction sizeMax → κ) (p : OwningPointer sizeMax) :
    Multiset κ :=
  p.destruction.elim 0 fun d => {f d}

theorem null_destruction {p : OwningPointer sizeMax} (h : p.pointer = 0) : p.destruction = none := by
  unfold OwningPointer.destruction
  rw [if_pos h]

theorem holding_none {κ : Type} (f : Destruction sizeMax → κ) {p : OwningPointer sizeMax}
    (h : p.destruction = none) : p.holding f = 0 := by
  rw [OwningPointer.holding, h, Option.elim_none]

theorem holding_some {κ : Type} (f : Destruction sizeMax → κ) {p : OwningPointer sizeMax}
    {d : Destruction sizeMax} (h : p.destruction = some d) : p.holding f = {f d} := by
  rw [OwningPointer.holding, h, Option.elim_some]

theorem null_holding {κ : Type} (f : Destruction sizeMax → κ) {p : OwningPointer sizeMax}
    (h : p.pointer = 0) : p.holding f = 0 :=
  holding_none f (null_destruction h)

/-- The returned pointer leads its deleter back to the object and the provider it came from. -/
theorem result_destruction (maker : Maker sizeMax) (provider : ProviderId) {storage : ℕ}
    (h : storage ≠ 0) : (maker.result provider storage).destruction =
      some ⟨⟨maker.type, storage⟩, maker.policy, provider⟩ := by
  cases maker with
  | unique T P =>
    simp only [OwningPointer.destruction, Maker.result, Maker.type, Maker.policy]
    exact if_neg h
  | polymorphic base derived P offset =>
    have hbase : toBase offset storage = storage + offset := if_neg h
    have hne : storage + offset ≠ 0 := by omega
    have hback : toDerived offset (storage + offset) = storage := by
      unfold toDerived
      rw [if_neg hne]
      omega
    simp only [OwningPointer.destruction, Maker.result, hbase, if_neg hne, hback, Maker.type,
      Maker.policy]

variable {ι : Type} {κ : Type}

def held (f : Destruction sizeMax → κ) (cells : ι → Option (OwningPointer sizeMax)) (i : ι) :
    Multiset κ :=
  (cells i).elim 0 (OwningPointer.holding f)

def Owning (cells : ι → Option (OwningPointer sizeMax)) : Prop :=
  ∀ i p, cells i = some p → p.pointer ≠ 0 → p.destruction.isSome

def Frame.block (deleter : ι → Option (Deleter sizeMax)) : Frame sizeMax ι → Block
  | .constructing c => c.block
  | .destroying d =>
    ⟨objectRequest d.object.type d.policy ((d.origin.provider deleter).getD defaultProvider),
      d.object.address⟩

/-- The blocks of the objects under construction or destruction. -/
def inFlight (deleter : ι → Option (Deleter sizeMax)) (stack : List (Frame sizeMax ι)) :
    Multiset Block :=
  (stack.map (Frame.block deleter) : List Block)

@[simp] theorem inFlight_nil (deleter : ι → Option (Deleter sizeMax)) : inFlight deleter [] = 0 := rfl

theorem inFlight_cons (deleter : ι → Option (Deleter sizeMax)) (f : Frame sizeMax ι)
    (stack : List (Frame sizeMax ι)) :
    inFlight deleter (f :: stack) = f.block deleter ::ₘ inFlight deleter stack := rfl

theorem assignment_uses {f : Frame sizeMax ι} {i j : ι} (h : f.assignment = some (i, j)) :
    i ∈ f.uses ∧ j ∈ f.uses := by
  cases f with
  | constructing c => cases h
  | destroying d =>
    have moves : d.assignment = some (i, j) := h
    simp [Frame.uses, moves]

theorem provider_congr {deleter deleter' : ι → Option (Deleter sizeMax)}
    {d : DeleterCall sizeMax ι} (h : ∀ k ∈ (Frame.destroying d).uses, deleter' k = deleter k) :
    d.origin.provider deleter' = d.origin.provider deleter := by
  cases ho : d.origin with
  | passed provider => rfl
  | member i =>
    have used : i ∈ (Frame.destroying d).uses := by simp [Frame.uses, ho, Origin.uses]
    simp only [Origin.provider, h i used]

theorem block_congr {deleter deleter' : ι → Option (Deleter sizeMax)} {f : Frame sizeMax ι}
    (h : ∀ k ∈ f.uses, deleter' k = deleter k) : f.block deleter' = f.block deleter := by
  cases f with
  | constructing c => rfl
  | destroying d =>
    simp only [Frame.block, provider_congr h]

theorem inFlight_congr {deleter deleter' : ι → Option (Deleter sizeMax)}
    {stack : List (Frame sizeMax ι)} (h : ∀ k ∈ stack.flatMap Frame.uses, deleter' k = deleter k) :
    inFlight deleter' stack = inFlight deleter stack := by
  unfold inFlight
  congr 1
  exact List.map_congr_left fun f hf =>
    block_congr fun k hk => h k (List.mem_flatMap.mpr ⟨f, hf, hk⟩)

variable [DecidableEq ι]

def Frame.source (k : ι) (f : Frame sizeMax ι) : Option ι :=
  f.assignment.bind fun (i, j) => if j = k then some i else none

/-- The deleter that the innermost move assignment to the pointer has still to move into it. -/
def awaited (deleter : ι → Option (Deleter sizeMax)) (stack : List (Frame sizeMax ι)) (k : ι) :
    Option (Deleter sizeMax) :=
  (stack.findSome? (Frame.source k)).bind deleter

theorem source_some {k i : ι} {f : Frame sizeMax ι} (h : f.source k = some i) :
    f.assignment = some (i, k) := by
  obtain ⟨⟨a, b⟩, hab, hi⟩ := Option.bind_eq_some_iff.mp h
  change (if b = k then some a else none) = some i at hi
  split at hi
  · rename_i hk
    rw [hab, Option.some.inj hi, hk]
  · cases hi

theorem source_mem {k i : ι} {stack : List (Frame sizeMax ι)}
    (h : stack.findSome? (Frame.source k) = some i) :
    i ∈ stack.flatMap Frame.uses ∧ k ∈ stack.flatMap Frame.uses := by
  obtain ⟨f, hf, hi⟩ := List.exists_of_findSome?_eq_some h
  have used := assignment_uses (source_some hi)
  exact ⟨List.mem_flatMap.mpr ⟨f, hf, used.1⟩, List.mem_flatMap.mpr ⟨f, hf, used.2⟩⟩

theorem awaited_congr {deleter deleter' : ι → Option (Deleter sizeMax)}
    {stack : List (Frame sizeMax ι)} (h : ∀ k ∈ stack.flatMap Frame.uses, deleter' k = deleter k) :
    awaited deleter' stack = awaited deleter stack := by
  funext k
  unfold awaited
  cases hs : stack.findSome? (Frame.source k) with
  | none => rfl
  | some i => exact h i (source_mem hs).1

theorem awaited_unused (deleter : ι → Option (Deleter sizeMax)) {stack : List (Frame sizeMax ι)}
    {k : ι} (h : k ∉ stack.flatMap Frame.uses) : awaited deleter stack k = none := by
  unfold awaited
  cases hs : stack.findSome? (Frame.source k) with
  | none => rfl
  | some i => exact absurd (source_mem hs).2 h

theorem awaited_cons (deleter : ι → Option (Deleter sizeMax)) {f : Frame sizeMax ι} {i j : ι}
    (h : f.assignment = some (i, j)) (stack : List (Frame sizeMax ι)) :
    awaited deleter (f :: stack) = Function.update (awaited deleter stack) j (deleter i) := by
  funext k
  by_cases hk : k = j
  · subst hk
    have here : f.source k = some i := by simp [Frame.source, h]
    rw [Function.update_self, awaited, List.findSome?_cons_of_isSome (by simp [here]), here,
      Option.bind_some]
  · have other : f.source k = none := by simp [Frame.source, h, Ne.symm hk]
    rw [Function.update_of_ne hk, awaited, List.findSome?_cons_of_isNone (by simp [other])]
    rfl

theorem awaited_silent (deleter : ι → Option (Deleter sizeMax)) {f : Frame sizeMax ι}
    (h : f.assignment = none) (stack : List (Frame sizeMax ι)) :
    awaited deleter (f :: stack) = awaited deleter stack := by
  funext k
  rw [awaited, List.findSome?_cons_of_isNone (by simp [Frame.source, h])]
  rfl

/-- What the inner frame moves into a pointer is what an outer one has to find there. -/
def Agree (deleter : ι → Option (Deleter sizeMax)) (f g : Frame sizeMax ι) : Prop :=
  ∀ i k, f.assignment = some (i, k) →
    (k ∈ g.uses → deleter i = deleter k) ∧ ∀ j, g.assignment = some (j, k) → deleter j = deleter k

theorem agree_awaited {deleter : ι → Option (Deleter sizeMax)} {stack : List (Frame sizeMax ι)}
    (nested : stack.Pairwise (Agree deleter)) {k : ι} {d : Deleter sizeMax}
    (hd : awaited deleter stack k = some d) (same : deleter k = some d) {g : Frame sizeMax ι}
    (hg : g ∈ stack) {j : ι} (hj : g.assignment = some (j, k)) : deleter j = deleter k := by
  induction stack with
  | nil => cases hg
  | cons f stack ih =>
    obtain ⟨first, rest⟩ := List.pairwise_cons.mp nested
    cases hf : f.source k with
    | some i =>
      have moves := source_some hf
      rw [awaited_cons deleter moves, Function.update_self] at hd
      rcases List.mem_cons.mp hg with rfl | hg
      · rw [moves] at hj
        cases hj
        rw [hd, same]
      · exact (first g hg i k moves).2 j hj
    | none =>
      have skipped : awaited deleter (f :: stack) k = awaited deleter stack k := by
        rw [awaited, List.findSome?_cons_of_isNone (by simp [hf])]
        rfl
      rw [skipped] at hd
      rcases List.mem_cons.mp hg with rfl | hg
      · simp [Frame.source, hj] at hf
      · exact ih rest hd hg

def State.awaited (s : State sizeMax ι) (k : ι) : Option (Deleter sizeMax) :=
  UniqueOwnership.awaited s.deleter s.stack k

/-- The pointer with the deleter that it will have when the running assignments have ended. -/
def State.pair (s : State sizeMax ι) (k : ι) (p : OwningPointer sizeMax) : OwningPointer sizeMax :=
  { p with deleter := (s.awaited k).getD p.deleter }

def State.paired (s : State sizeMax ι) (cells : ι → Option (OwningPointer sizeMax)) (k : ι) :
    Option (OwningPointer sizeMax) :=
  (cells k).map (s.pair k)

def State.owned (s : State sizeMax ι) : ι → Option (OwningPointer sizeMax) := s.paired s.cells

def State.Owns (s : State sizeMax ι) (k : ι) : Prop := ∃ p ∈ s.cells k, p.pointer ≠ 0

/-- The pointer has been assigned, and the deleter that it has is another than it is to get. -/
def State.Mispaired (s : State sizeMax ι) (k : ι) : Prop := ∃ d ∈ s.awaited k, s.deleter k ≠ some d

/-- No destructor that is run by a reset or a move assignment gives the pointers that are reset or
assigned another deleter, or uses a mispaired one. -/
def Respectful (s : State sizeMax ι) : Action sizeMax ι → Prop
  | .moveConstruct i _ | .reset i => s.Owns i → ¬ s.Mispaired i
  | .moveAssign i j => i ≠ j → (s.Owns i → ¬ s.Mispaired i) ∧ ¬ s.Mispaired j ∧
      (j ∈ s.inUse → s.deleter i = s.deleter j)
  | .swap i j => i ≠ j → ¬ s.Mispaired i ∧ ¬ s.Mispaired j ∧
      (i ∈ s.inUse ∨ j ∈ s.inUse → s.deleter i = s.deleter j)
  | .null _ _ | .make _ _ _ | .constructed _ | .constructorThrew | .drop _ | .destructed
  | .change _ => True

instance (s : State sizeMax ι) (k : ι) : Decidable (s.Owns k) :=
  inferInstanceAs (Decidable (∃ p ∈ s.cells k, p.pointer ≠ 0))

instance (s : State sizeMax ι) (k : ι) : Decidable (s.Mispaired k) :=
  inferInstanceAs (Decidable (∃ d ∈ s.awaited k, s.deleter k ≠ some d))

instance (s : State sizeMax ι) (a : Action sizeMax ι) : Decidable (Respectful s a) := by
  unfold Respectful
  split <;> infer_instance

variable {s t : State sizeMax ι} {i j k : ι} {p q : OwningPointer sizeMax}

theorem awaited_used {d : Deleter sizeMax} (h : s.awaited k = some d) : k ∈ s.inUse := by
  by_contra unused
  cases (awaited_unused s.deleter unused).symm.trans h

theorem owned_idle (h : s.stack = []) : s.owned = s.cells := by
  have nothing : ∀ k, s.awaited k = none := fun k => by
    rw [State.awaited, h]
    rfl
  funext k
  cases hk : s.cells k with
  | none => simp [State.owned, State.paired, hk]
  | some p => simp [State.owned, State.paired, hk, State.pair, nothing k]

theorem pair_unawaited (h : s.awaited k = none) (p : OwningPointer sizeMax) : s.pair k p = p := by
  rw [State.pair, h, Option.getD_none]

theorem pair_unused (h : k ∉ s.inUse) (p : OwningPointer sizeMax) : s.pair k p = p :=
  pair_unawaited (awaited_unused s.deleter h) p

theorem pair_same (h : ∀ d ∈ s.awaited k, p.deleter = d) : s.pair k p = p := by
  cases hd : s.awaited k with
  | none => exact pair_unawaited hd p
  | some d =>
    have same := h d hd
    simp only [State.pair, hd, Option.getD_some, ← same]

omit [DecidableEq ι] in
theorem deleter_cell (hp : s.cells k = some p) : s.deleter k = some p.deleter := by
  rw [State.deleter, hp, Option.map_some]

omit [DecidableEq ι] in
theorem equal_deleters (hp : s.cells i = some p) (hq : s.cells j = some q)
    (h : s.deleter i = s.deleter j) : p.deleter = q.deleter := by
  rw [deleter_cell hp, deleter_cell hq] at h
  exact Option.some.inj h

omit [DecidableEq ι] in
theorem origin_uses {deleter : Deleter sizeMax} {provider : ProviderId}
    (h : k ∈ (deleter.origin i provider).uses) : k = i := by
  cases deleter with
  | object T P own => exact List.mem_singleton.mp h
  | polymorphic base own destroy => cases h

omit [DecidableEq ι] in
/-- The deleter calls the provider that it has itself. -/
theorem origin_provider {d : Destruction sizeMax} (hp : s.cells k = some p)
    (hd : p.destruction = some d) :
    (p.deleter.origin k d.provider).provider s.deleter = some d.provider := by
  unfold OwningPointer.destruction at hd
  split at hd
  · cases hd
  · cases he : p.deleter with
    | object T P provider =>
      rw [he] at hd
      rw [← Option.some.inj hd]
      simp only [Deleter.origin, Origin.provider, deleter_cell hp, he, Option.bind_some,
        Deleter.provider]
    | polymorphic base provider destroy => rfl

theorem pair_cell (hp : s.cells k = some p) (h : ¬ s.Mispaired k) : s.pair k p = p := by
  refine pair_same fun d hd => ?_
  by_contra other
  refine h ⟨d, hd, ?_⟩
  rw [deleter_cell hp]
  exact fun same => other (Option.some.inj same)

/-- A pointer in use is only given the deleter that it has. -/
theorem pair_given (paired : ¬ s.Mispaired k) (hp : s.cells k = some p)
    (used : k ∈ s.inUse → q.deleter = p.deleter) : s.pair k q = q := by
  refine pair_same fun d hd => ?_
  have right := pair_cell hp paired
  rw [State.pair, hd, Option.getD_some] at right
  rw [used (awaited_used hd)]
  exact (congrArg OwningPointer.deleter right).symm

theorem pair_holding {κ : Type} (f : Destruction sizeMax → κ) (hp : s.cells k = some p)
    (h : s.Owns k → ¬ s.Mispaired k) : (s.pair k p).holding f = p.holding f := by
  by_cases empty : p.pointer = 0
  · rw [null_holding f empty, null_holding f (show (s.pair k p).pointer = 0 from empty)]
  · rw [pair_cell hp (h ⟨p, hp, empty⟩)]

theorem held_owned {κ : Type} (f : Destruction sizeMax → κ) (hp : s.cells k = some p)
    (h : s.Owns k → ¬ s.Mispaired k) : held f s.owned k = p.holding f := by
  rw [held, State.owned, State.paired, hp, Option.map_some, Option.elim_some, pair_holding f hp h]

theorem held_vacant {κ : Type} (f : Destruction sizeMax → κ) (hp : s.cells k = none) :
    held f s.owned k = 0 := by
  rw [held, State.owned, State.paired, hp, Option.map_none, Option.elim_none]

theorem held_update {κ : Type} (f : Destruction sizeMax → κ)
    (cells : ι → Option (OwningPointer sizeMax)) (i : ι) (p : Option (OwningPointer sizeMax)) :
    held f (Function.update cells i p) =
      Function.update (held f cells) i (p.elim 0 (OwningPointer.holding f)) :=
  Function.comp_update (fun q : Option (OwningPointer sizeMax) => q.elim 0 (OwningPointer.holding f))
    cells i p

theorem paired_update (s : State sizeMax ι) (cells : ι → Option (OwningPointer sizeMax)) (i : ι)
    (p : Option (OwningPointer sizeMax)) :
    s.paired (Function.update cells i p) = Function.update (s.paired cells) i (p.map (s.pair i)) := by
  funext k
  exact Function.apply_update (fun k => Option.map (s.pair k)) cells i p k

theorem paired_put (s : State sizeMax ι) (i j : ι) (p q : OwningPointer sizeMax) :
    s.paired ((s.put i (some p)).put j (some q)).cells =
      Function.update (Function.update s.owned i (some (s.pair i p))) j (some (s.pair j q)) := by
  change s.paired (Function.update (Function.update s.cells i _) j _) = _
  rw [paired_update, paired_update, Option.map_some, Option.map_some]
  rfl

theorem owned_paired (h : t.awaited = s.awaited) : t.owned = s.paired t.cells := by
  funext k
  rw [State.owned, State.paired, State.paired]
  congr 1
  funext p
  rw [State.pair, State.pair, h]

/-- No deleter is replaced that is still to be used. -/
structure Steady (s t : State sizeMax ι) : Prop where
  stack : t.stack = s.stack
  deleters : ∀ k ∈ s.inUse, t.deleter k = s.deleter k

theorem Steady.awaited (h : Steady s t) : t.awaited = s.awaited := by
  funext k
  unfold State.awaited
  rw [h.stack, awaited_congr h.deleters]

theorem Steady.owned (h : Steady s t) : t.owned = s.paired t.cells := owned_paired h.awaited

omit [DecidableEq ι] in
theorem Steady.inFlight (h : Steady s t) :
    UniqueOwnership.inFlight t.deleter t.stack = UniqueOwnership.inFlight s.deleter s.stack := by
  rw [h.stack, inFlight_congr h.deleters]

theorem deleter_put (s : State sizeMax ι) (i : ι) (p : Option (OwningPointer sizeMax)) :
    (s.put i p).deleter = Function.update s.deleter i (p.map OwningPointer.deleter) := by
  funext k
  exact Function.apply_update (fun _ => Option.map OwningPointer.deleter) s.cells i p k

theorem deleter_put_same (hp : s.cells i = some p) (same : q.deleter = p.deleter) :
    (s.put i (some q)).deleter = s.deleter := by
  rw [deleter_put, Option.map_some, same, ← deleter_cell hp, Function.update_eq_self]

theorem moved_deleter (hp : s.cells i = some p) (j : ι) :
    ((s.put i (some p.released)).put j (some p)).deleter =
      Function.update s.deleter j (some p.deleter) := by
  rw [deleter_put, deleter_put_same (q := p.released) hp rfl, Option.map_some]

theorem movePointer_deleter (hij : i ≠ j) (hp : s.cells i = some p) (hq : s.cells j = some q) :
    (s.movePointer i j p q).deleter = s.deleter := by
  have there : (s.put i (some p.released)).cells j = some q := by
    change Function.update s.cells i _ j = _
    rw [Function.update_of_ne (Ne.symm hij), hq]
  have last : (s.movePointer i j p q).deleter = (s.put i (some p.released)).deleter :=
    deleter_put_same there rfl
  rw [last, deleter_put_same (q := p.released) hp rfl]

theorem moveDeleter_moved (hij : i ≠ j) : (s.movePointer i j p q).moveDeleter i j =
    (s.put i (some p.released)).put j (some p) := by
  simp only [State.moveDeleter, State.movePointer, State.put, Function.update_self,
    Function.update_of_ne hij, Function.update_idem]
  rfl

/-- While the assignment runs, the deleter that it will move counts already. -/
theorem assigned_owned (hij : i ≠ j) (hp : s.cells i = some p) (hq : s.cells j = some q)
    (d : Destruction sizeMax) (origin : Origin ι) :
    ((s.movePointer i j p q).destroy d origin (some (i, j))).owned =
      Function.update (Function.update s.owned i (some (s.pair i p.released))) j (some p) := by
  have awaits : ((s.movePointer i j p q).destroy d origin (some (i, j))).awaited =
      Function.update s.awaited j (some p.deleter) := by
    have pushed := awaited_cons (s.movePointer i j p q).deleter
      (f := .destroying ⟨d.object, d.policy, origin, some (i, j)⟩) rfl s.stack
    rw [movePointer_deleter hij hp hq, deleter_cell hp] at pushed
    funext k
    refine (congrFun ?_ k).trans (congrFun pushed k)
    rw [← movePointer_deleter hij hp hq]
    rfl
  funext k
  rw [State.owned, State.paired]
  change Option.map _ (Function.update (Function.update s.cells i _) j _ k) = _
  by_cases hk : k = j
  · subst hk
    rw [Function.update_self, Function.update_self, Option.map_some, State.pair, awaits,
      Function.update_self]
    rfl
  · have unmoved := congrFun (paired_update s s.cells i (some p.released)) k
    rw [Option.map_some] at unmoved
    rw [Function.update_of_ne hk, Function.update_of_ne hk]
    refine Eq.trans ?_ unmoved
    rw [State.paired]
    congr 1
    funext r
    rw [State.pair, State.pair, awaits, Function.update_of_ne hk]

/-- Only the deleter of one pointer changes, if any, and that is not in use. -/
theorem steady_put {d : Option (Deleter sizeMax)} (stack : t.stack = s.stack)
    (deleters : t.deleter = Function.update s.deleter i d) (h : i ∈ s.inUse → d = s.deleter i) :
    Steady s t where
  stack := stack
  deleters k hk := by
    rw [deleters]
    by_cases hi : k = i
    · subst hi
      rw [Function.update_self, h hk]
    · rw [Function.update_of_ne hi]

end

end ESPressioSystem.UniqueOwnership
