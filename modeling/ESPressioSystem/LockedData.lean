import Mathlib.Data.Multiset.Basic
import ESPressioSystem.ReleaseAcquire

set_option autoImplicit false

/-!
# Data that threads access only while they hold a lock

A lock keeps the holds it has granted, each in some mode, and hands on to whoever acquires it what
those knew who released it. Holds in an exclusive mode exclude other threads and allow to write.
-/
namespace ESPressioSystem.LockedData
open ReleaseAcquire

section
variable {Thread Mode : Type} (exclusive : Mode → Bool)

def Excludes (held : Multiset (Thread × Mode)) : Prop :=
  ∀ h ∈ held, exclusive h.2 = true → ∀ j ∈ held, j.1 = h.1

/-- Each access is known to the lock or to a thread that still holds it, and so to all it could
conflict with. -/
structure Ordered (held : Multiset (Thread × Mode)) (released : View) (view : Thread → View)
    (data : Plain) : Prop where
  read : ∀ e ∈ data.reads, e ∈ released ∨ ∃ h ∈ held, e ∈ view h.1
  written : ∀ e ∈ data.writes, e ∈ released ∨ ∃ h ∈ held, exclusive h.2 = true ∧ e ∈ view h.1
  reader : ∀ h ∈ held, data.ReadOrdered (view h.1)
  writer : ∀ h ∈ held, exclusive h.2 = true → data.WriteOrdered (view h.1)

variable {exclusive} {held : Multiset (Thread × Mode)} {released released' : View}
  {view view' : Thread → View} {data : Plain} {k : Thread × Mode} {e : ℕ}

theorem ordered_untouched (held : Multiset (Thread × Mode)) (released : View)
    (view : Thread → View) : Ordered exclusive held released view .untouched where
  read e he := absurd he (Finset.notMem_empty e)
  written e he := absurd he (Finset.notMem_empty e)
  reader _ _ := Finset.empty_subset _
  writer _ _ _ := ⟨Finset.empty_subset _, Finset.empty_subset _⟩

theorem Ordered.learn (h : Ordered exclusive held released view data)
    (grow : ∀ t, view t ⊆ view' t) : Ordered exclusive held released view' data where
  read e he := (h.read e he).imp_right fun ⟨j, hj, known⟩ => ⟨j, hj, grow j.1 known⟩
  written e he := (h.written e he).imp_right fun ⟨j, hj, hx, known⟩ => ⟨j, hj, hx, grow j.1 known⟩
  reader j hj := (h.reader j hj).trans (grow j.1)
  writer j hj hx := ⟨(h.writer j hj hx).1.trans (grow j.1), (h.writer j hj hx).2.trans (grow j.1)⟩

/-- Who acquires learns of the accesses of former holders; those of present ones it shares the
lock with are no conflict. -/
theorem Ordered.acquire (h : Ordered exclusive held released view data)
    (excludes : Excludes exclusive (k ::ₘ held)) (learnt : released ⊆ view k.1) :
    Ordered exclusive (k ::ₘ held) released view data := by
  have writes : data.ReadOrdered (view k.1) := by
    intro e he
    rcases h.written e he with past | ⟨j, hj, hx, known⟩
    · exact learnt past
    · have same := excludes j (Multiset.mem_cons_of_mem hj) hx k (Multiset.mem_cons_self k held)
      rwa [same]
  have reads : exclusive k.2 = true → data.reads ⊆ view k.1 := by
    intro hx e he
    rcases h.read e he with past | ⟨j, hj, known⟩
    · exact learnt past
    · have same := excludes k (Multiset.mem_cons_self k held) hx j (Multiset.mem_cons_of_mem hj)
      rwa [← same]
  refine ⟨?_, ?_, ?_, ?_⟩
  · intro e he
    exact (h.read e he).imp_right fun ⟨j, hj, known⟩ => ⟨j, Multiset.mem_cons_of_mem hj, known⟩
  · intro e he
    exact (h.written e he).imp_right fun ⟨j, hj, rest⟩ => ⟨j, Multiset.mem_cons_of_mem hj, rest⟩
  · intro j hj
    rcases Multiset.mem_cons.mp hj with rfl | hj
    · exact writes
    · exact h.reader j hj
  · intro j hj hx
    rcases Multiset.mem_cons.mp hj with rfl | hj
    · exact ⟨reads hx, writes⟩
    · exact h.writer j hj hx

theorem Ordered.release (h : Ordered exclusive (k ::ₘ held) released view data)
    (kept : released ⊆ released') (handed : view k.1 ⊆ released') :
    Ordered exclusive held released' view data where
  read e he := by
    rcases h.read e he with past | ⟨j, hj, known⟩
    · exact .inl (kept past)
    · rcases Multiset.mem_cons.mp hj with rfl | hj
      · exact .inl (handed known)
      · exact .inr ⟨j, hj, known⟩
  written e he := by
    rcases h.written e he with past | ⟨j, hj, hx, known⟩
    · exact .inl (kept past)
    · rcases Multiset.mem_cons.mp hj with rfl | hj
      · exact .inl (handed known)
      · exact .inr ⟨j, hj, hx, known⟩
  reader j hj := h.reader j (Multiset.mem_cons_of_mem hj)
  writer j hj := h.writer j (Multiset.mem_cons_of_mem hj)

theorem Ordered.read_by (h : Ordered exclusive held released view data)
    (excludes : Excludes exclusive held) (hk : k ∈ held) (he : e ∈ view k.1) :
    Ordered exclusive held released view (data.read e) where
  read d hd := by
    rcases Finset.mem_insert.mp hd with rfl | hd
    · exact .inr ⟨k, hk, he⟩
    · exact h.read d hd
  written := h.written
  reader := h.reader
  writer j hj hx := by
    refine ⟨Finset.insert_subset ?_ (h.writer j hj hx).1, (h.writer j hj hx).2⟩
    have same := excludes j hj hx k hk
    rwa [← same]

theorem Ordered.write_by (h : Ordered exclusive held released view data)
    (excludes : Excludes exclusive held) (hk : k ∈ held) (hx : exclusive k.2 = true)
    (he : e ∈ view k.1) : Ordered exclusive held released view (data.write e) := by
  have known : ∀ j ∈ held, insert e data.writes ⊆ view j.1 := by
    intro j hj
    refine Finset.insert_subset ?_ (h.reader j hj)
    have same := excludes k hk hx j hj
    rwa [same]
  refine ⟨h.read, ?_, known, fun j hj hx' => ⟨(h.writer j hj hx').1, known j hj⟩⟩
  intro d hd
  rcases Finset.mem_insert.mp hd with rfl | hd
  · exact .inr ⟨k, hk, hx, he⟩
  · exact h.written d hd

end

end ESPressioSystem.LockedData
