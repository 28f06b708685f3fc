import Mathlib.Data.List.Chain
import ESPressioSystem.ReleaseAcquire

set_option autoImplicit false

/-!
# A flag that is taken by an acquiring test-and-set and cleared by a releasing store

The one that has taken the flag clears it. What it knows then, the next one learns that takes it.
-/
namespace ESPressioSystem.SpinFlag
open ReleaseAcquire

section
variable {Value : Type} {a before after : List (Message Value)} {b : List (Message Value)}
  {e m n : Message Value}

theorem behind_insert (h : b ++ e :: a = before ++ m :: after) (n : Message Value) :
    ∃ b' a', before ++ m :: n :: after = b' ++ e :: a' ∧ ∀ x ∈ a', x = n ∨ x ∈ a := by
  rcases List.append_eq_append_iff.mp h with ⟨c, rfl, hc⟩ | ⟨c, rfl, hc⟩
  · cases c with
    | nil =>
      obtain ⟨rfl, rfl⟩ := List.cons.inj hc
      exact ⟨b, n :: a, by simp, fun x hx => List.mem_cons.mp hx⟩
    | cons d c =>
      obtain ⟨rfl, rfl⟩ := List.cons.inj hc
      refine ⟨b, c ++ m :: n :: after, by simp, fun x hx => ?_⟩
      have place : x ∈ c ∨ x = m ∨ x = n ∨ x ∈ after := by simpa using hx
      change x = n ∨ x ∈ c ++ m :: after
      simp only [List.mem_append, List.mem_cons]
      tauto
  · cases c with
    | nil =>
      obtain ⟨rfl, rfl⟩ := List.cons.inj hc
      exact ⟨before, n :: after, by simp, fun x hx => List.mem_cons.mp hx⟩
    | cons d c =>
      obtain ⟨rfl, rfl⟩ := List.cons.inj hc
      exact ⟨before ++ m :: n :: c, a, by simp, fun x hx => .inr hx⟩

theorem behind_suffix (h : b ++ e :: a = before ++ after) (apart : e ∉ after) :
    ∀ x ∈ after, x ∈ a := by
  rcases List.append_eq_append_iff.mp h with ⟨c, rfl, hc⟩ | ⟨c, rfl, hc⟩
  · cases c with
    | nil =>
      rw [List.nil_append] at hc
      exact absurd (hc ▸ List.mem_cons_self) apart
    | cons d c =>
      obtain ⟨_, rfl⟩ := List.cons.inj hc
      exact fun x hx => List.mem_append_right c hx
  · rw [hc] at apart
    exact absurd (List.mem_append_right c List.mem_cons_self) apart

end

def Follows (m n : Message Bool) : Prop := m.value = false → n.update = true

/-- `P` says of a view that it knows what is done under the flag. -/
structure Flag (x : Atomic Bool) (P : View → Prop) : Prop where
  joined : x.IsChain Follows
  free : ∀ m, x.getLast? = some m → m.value = false → P m.known

/-- Behind the step by which the owner took the flag there are only vain attempts to take it. -/
structure Owns (x : Atomic Bool) (P : View → Prop) (view : View) : Prop where
  knows : P view
  taken : ∃ before m after, x = before ++ m :: after ∧ m.event ∈ view ∧ ∀ n ∈ after, n.update = true

section
variable {x x' : Atomic Bool} {P Q : View → Prop} {view view' : View} {i event : ℕ}
  {m : Message Bool} {released : View}

theorem newest_of_last (hm : x.getLast? = some m) (initial : Bool) : newest x initial = m.value := by
  rw [newest, hm]
  rfl

theorem flag_initialised (event : ℕ) (h : P {event}) : Flag (initialised event false) P where
  joined := List.isChain_singleton _
  free n hn _ := by
    rw [← Option.some.inj hn]
    exact h

theorem Flag.change (h : Flag x P) (busy : newest x false = true) : Flag x Q where
  joined := h.joined
  free n hn value := by
    rw [newest_of_last hn, value] at busy
    cases busy

theorem Owns.mono (h : Owns x P view) (grow : view ⊆ view') (knows : Q view') : Owns x Q view' := by
  obtain ⟨before, n, after, here, known, joined⟩ := h.taken
  exact ⟨knows, before, n, after, here, grow known, joined⟩

theorem Flag.enter (h : Flag x P) (hx : exchange x view i event true released = some (m, x'))
    (value : m.value = false) : newest x false = false ∧ newest x' false = true ∧ P m.known ∧
      Flag x' Q ∧ ∀ view', event ∈ view' → Q view' → Owns x' Q view' := by
  obtain ⟨before, after, rfl, _, apart, rfl⟩ := exchange_cases hx
  cases after with
  | cons n later =>
    have joined := (List.isChain_append_cons_cons.mp h.joined).2.1 value
    exact absurd (joined.symm.trans apart) (by decide)
  | nil =>
    have chain : (before ++ [m, ⟨event, true, m.known ∪ released, true⟩]).IsChain Follows :=
      List.isChain_append_cons_cons.mpr ⟨h.joined, fun _ => rfl, List.isChain_singleton _⟩
    have last : (before ++ [m]).getLast? = some m := List.getLast?_concat
    refine ⟨(newest_of_last last false).trans value, by simp [newest], h.free m last value,
      ⟨chain, fun n hn hvalue => ?_⟩, fun view' known knows => ?_⟩
    · have taken : n.value = true := by
        rw [← newest_of_last hn false]
        simp [newest]
      cases taken.symm.trans hvalue
    · exact ⟨knows, before ++ [m], ⟨event, true, m.known ∪ released, true⟩, [], by simp, known,
        fun n hn => absurd hn List.not_mem_nil⟩

theorem Flag.spin (h : Flag x P) (hx : exchange x view i event true released = some (m, x'))
    (value : m.value = true) : newest x' false = newest x false ∧ Flag x' P ∧
      ∀ Q view', Owns x Q view' → Owns x' Q view' := by
  obtain ⟨before, after, rfl, _, _, rfl⟩ := exchange_cases hx
  have busy : ∀ n, Follows m n := fun n free => by cases value.symm.trans free
  obtain ⟨first, rest⟩ := List.isChain_split.mp h.joined
  refine ⟨?_, ⟨?_, fun n hn hvalue => ?_⟩, fun Q view' owns => ?_⟩
  · cases after <;> simp [newest, value]
  · refine List.isChain_append_cons_cons.mpr ⟨first, busy _, ?_⟩
    cases after with
    | nil => exact List.isChain_singleton _
    | cons n later =>
      have taken : Follows ⟨event, true, m.known ∪ released, true⟩ n := fun free => by cases free
      exact List.isChain_cons_cons.mpr ⟨taken, (List.isChain_cons_cons.mp rest).2⟩
  · cases after with
    | nil =>
      have last := newest_of_last hn false
      simp [newest, hvalue] at last
    | cons k later => exact h.free n (by simpa using hn) hvalue
  · obtain ⟨b, e, a, here, known, updates⟩ := owns.taken
    obtain ⟨b', a', split, sub⟩ := behind_insert here.symm ⟨event, true, m.known ∪ released, true⟩
    refine ⟨owns.knows, b', e, a', split, known, fun n hn => ?_⟩
    rcases sub n hn with rfl | hn
    · rfl
    · exact updates n hn

/-- Only the owner clears the flag, and hands on what it knows. -/
theorem Flag.clear (h : Flag x P) (busy : newest x false = true) (owns : Owns x Q view)
    (hx : store x view i ⟨event, false, view, false⟩ = some x') {R : View → Prop}
    (handed : R (insert event view)) : newest x' false = false ∧ Flag x' R := by
  obtain ⟨before, after, rfl, rfl, unseen, apart⟩ := store_cases hx
  obtain ⟨b, e, a, here, known, updates⟩ := owns.taken
  have behind := behind_suffix here.symm fun he => unseen e he known
  cases after with
  | cons n later =>
    have joined := updates n (behind n List.mem_cons_self)
    exact absurd (joined.symm.trans apart) (by decide)
  | nil =>
    rw [List.append_nil] at h busy
    refine ⟨newest_append before _ false, ?_, fun n hn _ => ?_⟩
    · refine List.isChain_append.mpr ⟨h.joined, List.isChain_singleton _, fun n hn k _ free => ?_⟩
      rw [newest_of_last hn, free] at busy
      cases busy
    · rw [List.getLast?_concat] at hn
      rw [← Option.some.inj hn]
      exact handed

end

end ESPressioSystem.SpinFlag
