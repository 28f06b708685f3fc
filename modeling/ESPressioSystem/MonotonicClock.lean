import Mathlib.Algebra.Ring.Int.Defs
import Mathlib.Data.List.Pairwise

set_option autoImplicit false

/-!
# `SteadyMonotonicClock::NowNanoseconds` at successive moments

The standard library promises that the ticks of `steady_clock` never decrease, and says nothing
of the moment from which they are counted.
-/
namespace ESPressioSystem.MonotonicClock

structure Conversion where
  num : ℕ
  den : ℕ
  den_pos : 0 < den

/-- `duration_cast<nanoseconds>`, which truncates towards zero. -/
def durationCast (c : Conversion) (ticks : ℤ) : ℤ := (ticks * c.num).tdiv c.den

def nowNanoseconds (c : Conversion) (ticks : ℤ) : UInt64 := UInt64.ofInt (durationCast c ticks)

def Representable (c : Conversion) (ticks : ℤ) : Prop :=
  -2 ^ 63 ≤ ticks * c.num ∧ ticks * c.num < 2 ^ 63

section
variable {c : Conversion} {t u : ℤ}

theorem durationCast_mono (h : t ≤ u) : durationCast c t ≤ durationCast c u := by
  have scaled : t * c.num ≤ u * c.num := Int.mul_le_mul_of_nonneg_right h (Int.natCast_nonneg _)
  exact Int.tdiv_le_tdiv (Int.natCast_pos.mpr c.den_pos) scaled

theorem durationCast_range (h : Representable c t) :
    -2 ^ 63 ≤ durationCast c t ∧ durationCast c t < 2 ^ 63 := by
  obtain ⟨low, high⟩ := h
  have den : (0 : ℤ) < c.den := Int.natCast_pos.mpr c.den_pos
  unfold durationCast
  rcases Int.le_total 0 (t * c.num) with nonneg | nonpos
  · have least := Int.tdiv_nonneg nonneg (Int.le_of_lt den)
    have most := Int.tdiv_le_self c.den nonneg
    omega
  · have flipped : (-(t * c.num)).tdiv c.den = -(t * c.num).tdiv c.den := Int.neg_tdiv _ _
    have least := Int.tdiv_nonneg (a := -(t * c.num)) (by omega) (Int.le_of_lt den)
    have most := Int.tdiv_le_self (a := -(t * c.num)) c.den (by omega)
    omega

theorem toNat_nowNanoseconds (h : Representable c t) :
    ((nowNanoseconds c t).toNat : ℤ) =
      if 0 ≤ durationCast c t then durationCast c t else durationCast c t + 2 ^ 64 := by
  have range := durationCast_range h
  have cast : (nowNanoseconds c t).toNat = (durationCast c t % 2 ^ 64).toNat := by
    rw [nowNanoseconds, UInt64.ofInt, UInt64.toNat_ofNat']
    omega
  rw [cast]
  split <;> omega

theorem reading_le_iff (ht : Representable c t) (hu : Representable c u) (h : t ≤ u) :
    nowNanoseconds c t ≤ nowNanoseconds c u ↔
      ¬ (durationCast c t < 0 ∧ 0 ≤ durationCast c u) := by
  have first := toNat_nowNanoseconds ht
  have second := toNat_nowNanoseconds hu
  have least := durationCast_range ht
  have most := durationCast_range hu
  have mono := @durationCast_mono c t u h
  rw [UInt64.le_iff_toNat_le]
  split at first <;> split at second <;> omega

theorem reading_sub (ht : Representable c t) (hu : Representable c u) (h : t ≤ u) :
    ((nowNanoseconds c u - nowNanoseconds c t).toNat : ℤ) = durationCast c u - durationCast c t := by
  have first := toNat_nowNanoseconds ht
  have second := toNat_nowNanoseconds hu
  have least := durationCast_range ht
  have most := durationCast_range hu
  have mono := @durationCast_mono c t u h
  rw [UInt64.toNat_sub]
  split at first <;> split at second <;> omega

end

section
variable {c : Conversion} {ticks : List ℤ}

theorem readings_in_order (steady : ticks.Pairwise (· ≤ ·))
    (sorted : (ticks.map (nowNanoseconds c)).Pairwise (· ≤ ·)) {t u : ℤ} (ht : t ∈ ticks)
    (hu : u ∈ ticks) (h : t ≤ u) : nowNanoseconds c t ≤ nowNanoseconds c u := by
  let InOrder (t u : ℤ) : Prop := (t ≤ u → nowNanoseconds c t ≤ nowNanoseconds c u) ∧
    (u ≤ t → nowNanoseconds c u ≤ nowNanoseconds c t)
  have pairs : ticks.Pairwise InOrder := by
    apply (steady.and (List.pairwise_map.mp sorted)).imp
    intro t u before
    constructor
    · intro
      exact before.2
    · intro back
      have same : t = u := by omega
      rw [same]
      exact UInt64.le_refl _
  have symmetric : Std.Symm InOrder := ⟨fun _ _ ordered => ordered.symm⟩
  have itself : ∀ t ∈ ticks, InOrder t t :=
    fun t _ => ⟨fun _ => UInt64.le_refl _, fun _ => UInt64.le_refl _⟩
  exact (List.Pairwise.forall_of_forall itself pairs ht hu).1 h

end

end ESPressioSystem.MonotonicClock
