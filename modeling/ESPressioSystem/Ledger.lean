import Mathlib.Algebra.BigOperators.Group.Multiset.Basic
import Mathlib.Algebra.BigOperators.Group.Finset.Piecewise
import Mathlib.Data.Fintype.Basic
import ESPressioSystem.Transition

set_option autoImplicit false

/-!
# Ledgers: acquisitions, releases and what is outstanding between them

The entries name the thing acquired in full, so a release is accepted only for exactly
what was acquired before and has not been released since. `admits` may refuse an
acquisition in view of what is outstanding; a plain ledger refuses none.
-/
namespace ESPressioSystem.Ledger
open Transition

inductive Entry (κ : Type) where
  | acquire (k : κ)
  | release (k : κ)
  deriving DecidableEq, Repr

section
variable {κ : Type} [DecidableEq κ]

def post (admits : Multiset κ → κ → Bool) (held : Multiset κ) : Entry κ → Option (Multiset κ)
  | .acquire k => if admits held k then some (k ::ₘ held) else none
  | .release k => if k ∈ held then some (held.erase k) else none

def plain (held : Multiset κ) (e : Entry κ) : Option (Multiset κ) := post (fun _ _ => true) held e

def acquisitions (k : κ) (entries : List (Entry κ)) : ℕ := entries.count (.acquire k)
def releases (k : κ) (entries : List (Entry κ)) : ℕ := entries.count (.release k)

variable {admits : Multiset κ → κ → Bool}

theorem post_acquire {held held' : Multiset κ} {k : κ}
    (h : post admits held (.acquire k) = some held') : admits held k = true ∧ held' = k ::ₘ held := by
  simp only [post] at h
  split at h
  · rename_i ha
    exact ⟨ha, (Option.some.inj h).symm⟩
  · cases h

theorem post_release {held held' : Multiset κ} {k : κ}
    (h : post admits held (.release k) = some held') : k ∈ held ∧ held = k ::ₘ held' := by
  simp only [post] at h
  split at h
  · rename_i hk
    rw [← Option.some.inj h]
    exact ⟨hk, (Multiset.cons_erase hk).symm⟩
  · cases h

@[simp] theorem plain_acquire (held : Multiset κ) (k : κ) :
    plain held (.acquire k) = some (k ::ₘ held) := rfl

@[simp] theorem plain_release (held : Multiset κ) (k : κ) :
    plain (k ::ₘ held) (.release k) = some held := by
  simp [plain, post]

theorem plain_release_iff {held : Multiset κ} {j k : κ} :
    plain (k ::ₘ held) (.release j) = some held ↔ j = k := by
  constructor
  · intro h
    exact ((Multiset.cons_inj_left held).mp (post_release h).2).symm
  · rintro rfl
    exact plain_release held j

theorem count_post {held held' : Multiset κ} {e : Entry κ} (h : post admits held e = some held')
    (k : κ) : held'.count k + releases k [e] = held.count k + acquisitions k [e] := by
  cases e with
  | acquire j =>
    obtain ⟨_, rfl⟩ := post_acquire h
    by_cases hk : j = k
    · subst hk
      simp [acquisitions, releases]
    · simp [acquisitions, releases, hk, Ne.symm hk]
  | release j =>
    obtain ⟨_, rfl⟩ := post_release h
    by_cases hk : j = k
    · subst hk
      simp [acquisitions, releases]
    · simp [acquisitions, releases, hk, Ne.symm hk]

/-- What is outstanding is what was acquired less what was released. -/
theorem count_run {held held' : Multiset κ} {entries : List (Entry κ)}
    (h : run (post admits) held entries = some held') (k : κ) :
    held'.count k + releases k entries = held.count k + acquisitions k entries := by
  induction entries generalizing held with
  | nil =>
    rw [run_nil, Option.some.injEq] at h
    subst h
    rfl
  | cons e entries ih =>
    obtain ⟨mid, hmid, htail⟩ := (run_cons _).mp h
    have hstep := count_post hmid k
    have hrest := ih htail
    have ha : acquisitions k (e :: entries) = acquisitions k [e] + acquisitions k entries := by
      unfold acquisitions
      rw [← List.count_append, List.singleton_append]
    have hr : releases k (e :: entries) = releases k [e] + releases k entries := by
      unfold releases
      rw [← List.count_append, List.singleton_append]
    omega

theorem count_run_empty {held : Multiset κ} {entries : List (Entry κ)}
    (h : run (post admits) 0 entries = some held) (k : κ) :
    held.count k + releases k entries = acquisitions k entries := by
  simpa using count_run h k

/-- A thing is outstanding exactly while it has been acquired more often than released. -/
theorem mem_iff_releases_lt {held : Multiset κ} {entries : List (Entry κ)}
    (h : run (post admits) 0 entries = some held) (k : κ) :
    k ∈ held ↔ releases k entries < acquisitions k entries := by
  have hc := count_run_empty h k
  rw [← Multiset.one_le_count_iff_mem]
  omega

theorem release_lt_acquisitions {held : Multiset κ} {before after : List (Entry κ)} {k : κ}
    (h : run (post admits) 0 (before ++ .release k :: after) = some held) :
    releases k before < acquisitions k before := by
  obtain ⟨mid, hmid, hrest⟩ := Option.bind_eq_some_iff.mp ((run_append _ _ before _).symm.trans h)
  obtain ⟨later, hlater, _⟩ := (run_cons _).mp hrest
  exact (mem_iff_releases_lt hmid k).mp (post_release hlater).1

/-- A plain ledger takes no notice of what else is held. -/
theorem run_frame {held held' : Multiset κ} (rest : Multiset κ) {entries : List (Entry κ)}
    (h : run plain held entries = some held') :
    run plain (held + rest) entries = some (held' + rest) := by
  have step : ∀ (held : Multiset κ) e held', plain held e = some held' →
      plain (held + rest) (id e) = some (held' + rest) := by
    intro held e held' h
    cases e with
    | acquire k =>
      obtain ⟨_, rfl⟩ := post_acquire h
      rw [Multiset.cons_add]
      rfl
    | release k =>
      obtain ⟨_, rfl⟩ := post_release h
      rw [Multiset.cons_add]
      exact plain_release _ _
  have framed := run_map (fun held => held + rest) id step h
  rwa [List.map_id] at framed

/-- What is outstanding is pairwise related, if each acquisition is to what it meets. -/
theorem pairwise_of_run {R : κ → κ → Prop} [Std.Symm R] {held : Multiset κ}
    {entries : List (Entry κ)} (h : run plain 0 entries = some held)
    (fresh : ∀ before k after mid, entries = before ++ .acquire k :: after →
      run plain 0 before = some mid → ∀ j ∈ mid, R k j) : held.Pairwise R := by
  induction entries using List.reverseRecOn generalizing held with
  | nil =>
    rw [run_nil, Option.some.injEq] at h
    exact h ▸ Multiset.pairwise_zero R
  | append_singleton entries e ih =>
    obtain ⟨mid, hmid, hlast⟩ := Option.bind_eq_some_iff.mp ((run_append _ _ entries _).symm.trans h)
    rw [run_singleton] at hlast
    have before : mid.Pairwise R := by
      refine ih hmid fun first k after u hsplit => fresh first k (after ++ [e]) u ?_
      rw [hsplit, List.append_assoc, List.cons_append]
    cases e with
    | acquire k =>
      obtain ⟨_, rfl⟩ := post_acquire hlast
      have apart := fresh entries k [] mid rfl hmid
      induction mid using Quot.inductionOn with
      | h l =>
        refine ⟨k :: l, rfl, List.pairwise_cons.mpr ⟨apart, ?_⟩⟩
        exact Multiset.pairwise_coe_iff_pairwise.mp before
    | release k =>
      obtain ⟨_, rfl⟩ := post_release hlast
      induction held using Quot.inductionOn with
      | h l => exact ⟨l, rfl, (List.pairwise_cons.mp (Multiset.pairwise_coe_iff_pairwise.mp before)).2⟩

end

section
variable {κ κ' : Type} [DecidableEq κ] [DecidableEq κ']

def Entry.image (f : κ → Option κ') : Entry κ → Option (Entry κ')
  | .acquire k => (f k).map .acquire
  | .release k => (f k).map .release

/-- The ledger of what things look like to somebody who sees only some of them. -/
theorem run_image (f : κ → Option κ') {held held' : Multiset κ} {entries : List (Entry κ)}
    (h : run plain held entries = some held') :
    run plain (held.filterMap f) (entries.filterMap (Entry.image f)) = some (held'.filterMap f) := by
  induction entries generalizing held with
  | nil =>
    rw [run_nil, Option.some.injEq] at h
    rw [h, List.filterMap_nil, run_nil]
  | cons e entries ih =>
    obtain ⟨mid, hmid, htail⟩ := (run_cons _).mp h
    have later := ih htail
    cases e with
    | acquire k =>
      obtain ⟨_, rfl⟩ := post_acquire hmid
      cases hf : f k with
      | none =>
        rw [Multiset.filterMap_cons_none _ _ hf] at later
        rw [List.filterMap_cons_none (by simp [Entry.image, hf])]
        exact later
      | some j =>
        rw [Multiset.filterMap_cons_some _ _ _ hf] at later
        rw [List.filterMap_cons_some (by simp [Entry.image, hf]; rfl)]
        exact (run_cons _).mpr ⟨_, plain_acquire _ j, later⟩
    | release k =>
      obtain ⟨_, rfl⟩ := post_release hmid
      cases hf : f k with
      | none =>
        rw [Multiset.filterMap_cons_none _ _ hf, List.filterMap_cons_none (by simp [Entry.image, hf])]
        exact later
      | some j =>
        rw [Multiset.filterMap_cons_some _ _ _ hf,
          List.filterMap_cons_some (by simp [Entry.image, hf]; rfl)]
        exact (run_cons _).mpr ⟨_, plain_release _ j, later⟩

end

section
variable {κ ι : Type} [Fintype ι] [DecidableEq ι]

def holdings (f : ι → Multiset κ) : Multiset κ := ∑ i, f i

theorem holdings_split (f : ι → Multiset κ) (i : ι) :
    ∃ rest, holdings f = f i + rest ∧ ∀ x, holdings (Function.update f i x) = x + rest := by
  refine ⟨∑ j ∈ Finset.univ.erase i, f j, ?_, fun x => ?_⟩
  · exact (Finset.add_sum_erase _ f (Finset.mem_univ i)).symm
  · unfold holdings
    rw [Finset.sum_update_of_mem (Finset.mem_univ i), Finset.sdiff_singleton_eq_erase]

/-- Members that pass things between them leave the total as it was. -/
theorem holdings_transfer (f : ι → Multiset κ) {i j : ι} {x y : Multiset κ} (hne : i ≠ j)
    (h : x + y = f i + f j) : holdings (Function.update (Function.update f i x) j y) = holdings f := by
  obtain ⟨rest, htotal, hupdate⟩ := holdings_split f i
  obtain ⟨rest', htotal', hupdate'⟩ := holdings_split (Function.update f i x) j
  rw [hupdate x, Function.update_of_ne hne.symm] at htotal'
  rw [hupdate', htotal]
  have shifted : f j + (y + rest') = f j + (f i + rest) := by
    calc
      f j + (y + rest') = y + (x + rest) := by rw [htotal', add_left_comm]
      _ = x + y + rest := by rw [← add_assoc, add_comm y x]
      _ = f j + (f i + rest) := by rw [h, add_comm (f i), add_assoc]
  exact add_left_cancel shifted

theorem holdings_swap (f : ι → Multiset κ) (i j : ι) :
    holdings (Function.update (Function.update f i (f j)) j (f i)) = holdings f := by
  by_cases hij : i = j
  · subst hij
    rw [Function.update_idem, Function.update_eq_self]
  · exact holdings_transfer f hij (add_comm _ _)

/-- One member takes over what another holds and gives up its own. -/
theorem holdings_take (f : ι → Multiset κ) {i j : ι} (hself : i = j → f i = 0) :
    holdings f = f j + holdings (Function.update (Function.update f i 0) j (f i)) := by
  by_cases hij : i = j
  · have empty := hself hij
    subst hij
    rw [Function.update_idem, Function.update_eq_self, empty, zero_add]
  · obtain ⟨rest, htotal, hupdate⟩ := holdings_split f i
    obtain ⟨rest', htotal', hupdate'⟩ := holdings_split (Function.update f i 0) j
    rw [hupdate, zero_add, Function.update_of_ne (Ne.symm hij)] at htotal'
    rw [hupdate', htotal, htotal', add_left_comm]

theorem holdings_pair (f : ι → Multiset κ) {i j : ι} (hne : i ≠ j) :
    ∃ rest, holdings f = f i + (f j + rest) := by
  obtain ⟨others, total, update⟩ := holdings_split f i
  obtain ⟨rest, remaining, _⟩ := holdings_split (Function.update f i 0) j
  rw [update, zero_add, Function.update_of_ne hne.symm] at remaining
  exact ⟨rest, remaining ▸ total⟩

omit [DecidableEq ι] in
theorem pairwise_of_add {R : κ → κ → Prop} [Std.Symm R] {x y : Multiset κ}
    (h : (x + y).Pairwise R) : x.Pairwise R := by
  induction x using Quot.inductionOn with
  | h l =>
    induction y using Quot.inductionOn with
    | h l' =>
      have pairs : (l ++ l').Pairwise R := Multiset.pairwise_coe_iff_pairwise.mp h
      exact ⟨l, rfl, (List.pairwise_append.mp pairs).1⟩

theorem related_of_pairwise {R : κ → κ → Prop} [Std.Symm R] {x y : Multiset κ}
    (h : (x + y).Pairwise R) {a b : κ} (ha : a ∈ x) (hb : b ∈ y) : R a b := by
  induction x using Quot.inductionOn with
  | h l =>
    induction y using Quot.inductionOn with
    | h l' =>
      have pairs : (l ++ l').Pairwise R := Multiset.pairwise_coe_iff_pairwise.mp h
      exact (List.pairwise_append.mp pairs).2.2 a ha b hb

omit [DecidableEq ι] in
theorem holdings_empty : holdings (fun _ : ι => (0 : Multiset κ)) = 0 := Finset.sum_const_zero

end

end ESPressioSystem.Ledger
