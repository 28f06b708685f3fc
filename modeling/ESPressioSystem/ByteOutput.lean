import Mathlib.Data.List.TakeDrop
import ESPressioSystem.Platform

set_option autoImplicit false

/-!
# `WriteByte`, `WriteText` and `WriteLine` over any `IByteOutput::Write`
-/
namespace ESPressioSystem.ByteOutput
open Platform

structure WriteAnswer where
  result : PlatformResult
  bytesWritten : ℕ

/-- An implementation of `Write`: it accepts a prefix of the data, of the length it reports. -/
structure Device (σ : Type) where
  write : σ → List UInt8 → σ × WriteAnswer
  bytesWritten_le : ∀ s data, (write s data).2.bytesWritten ≤ data.length

structure Text where
  bytes : List UInt8
  noNull : 0 ∉ bytes

def crlf : Text := ⟨[13, 10], by decide⟩

structure Output (σ : Type) where
  state : σ
  accepted : List UInt8

section
variable {σ : Type} (d : Device σ)

def write (s : Output σ) (data : List UInt8) : Output σ × WriteAnswer :=
  let r := d.write s.state data
  (⟨r.1, s.accepted ++ data.take r.2.bytesWritten⟩, r.2)

def writeByte (s : Output σ) (value : UInt8) : Output σ × PlatformResult :=
  let r := write d s [value]
  (r.1, r.2.result)

/-- `none` is the null pointer. -/
def writeText (s : Output σ) (text : Option Text) : Output σ × PlatformResult :=
  match text with
  | none => (s, failed .invalidArgument 0)
  | some t =>
    let r := write d s t.bytes
    (r.1, r.2.result)

def writeLine (s : Output σ) (text : Option Text) : Output σ × PlatformResult :=
  match text with
  | some t =>
    let textResult := writeText d s (some t)
    if textResult.2.isSuccess then writeText d textResult.1 (some crlf) else textResult
  | none => writeText d s (some crlf)

def lineBytes (text : Option Text) : List UInt8 := (text.elim [] Text.bytes) ++ crlf.bytes

/-- The bytes accepted during the call are a prefix of `whole`, and on success all of it. -/
def Complete (whole : List UInt8) (s : Output σ) (r : Output σ × PlatformResult) : Prop :=
  ∃ new, r.1.accepted = s.accepted ++ new ∧ new <+: whole ∧ (r.2.isSuccess = true → new = whole)

variable {d}

theorem complete_of_accepted {whole new : List UInt8} {s : Output σ} {r : Output σ × PlatformResult}
    (h : r.1.accepted = s.accepted ++ new) :
    Complete whole s r ↔ new <+: whole ∧ (r.2.isSuccess = true → new = whole) := by
  constructor
  · rintro ⟨other, hother, rest⟩
    have same : new = other := List.append_cancel_left (h.symm.trans hother)
    exact same ▸ rest
  · exact fun rest => ⟨new, h, rest⟩

theorem write_complete_iff (s : Output σ) (data : List UInt8) :
    Complete data s ((write d s data).1, (write d s data).2.result) ↔
      ((write d s data).2.result.isSuccess = true →
        (write d s data).2.bytesWritten = data.length) := by
  have accepted : (write d s data).1.accepted =
      s.accepted ++ data.take (write d s data).2.bytesWritten := rfl
  have whole : data.take (write d s data).2.bytesWritten = data ↔
      (write d s data).2.bytesWritten = data.length := by
    have written : (write d s data).2.bytesWritten ≤ data.length := d.bytesWritten_le s.state data
    rw [List.take_eq_self_iff]
    omega
  rw [complete_of_accepted accepted]
  exact (and_iff_right (List.take_prefix _ _)).trans (imp_congr_right fun _ => whole)

theorem writeByte_complete_iff (s : Output σ) (value : UInt8) :
    Complete [value] s (writeByte d s value) ↔
      ((write d s [value]).2.result.isSuccess = true → (write d s [value]).2.bytesWritten = 1) :=
  write_complete_iff s [value]

theorem writeText_complete_iff (s : Output σ) (t : Text) :
    Complete t.bytes s (writeText d s (some t)) ↔
      ((write d s t.bytes).2.result.isSuccess = true →
        (write d s t.bytes).2.bytesWritten = t.bytes.length) :=
  write_complete_iff s t.bytes

theorem prefix_after_part {text tail rest : List UInt8} {n : ℕ} (h : n ≤ text.length) :
    text.take n ++ rest <+: text ++ tail ↔ rest <+: (text ++ tail).drop n := by
  have part : (text ++ tail).take n = text.take n := List.take_append_of_le_length h
  have split : text ++ tail = text.take n ++ (text ++ tail).drop n := by
    rw [← part, List.take_append_drop]
  calc
    text.take n ++ rest <+: text ++ tail ↔
        text.take n ++ rest <+: text.take n ++ (text ++ tail).drop n := by rw [← split]
    _ ↔ rest <+: (text ++ tail).drop n := List.prefix_append_right_inj _

theorem parts_eq_whole {text tail : List UInt8} {n m : ℕ} (hn : n ≤ text.length)
    (hm : m ≤ tail.length) :
    text.take n ++ tail.take m = text ++ tail ↔ n = text.length ∧ m = tail.length := by
  constructor
  · intro heq
    have length := congrArg List.length heq
    simp only [List.length_append, List.length_take] at length
    omega
  · rintro ⟨rfl, rfl⟩
    rw [List.take_length, List.take_length]

/-- The device either refuses the text, or takes it whole and the terminator too unless it
refuses that, or refuses the terminator after a part that goes on with the text. -/
def LineDelivered (d : Device σ) (s : Output σ) (t : Text) : Prop :=
  let first := write d s t.bytes
  let second := write d first.1 crlf.bytes
  first.2.result.isSuccess = false ∨
    (first.2.bytesWritten = t.bytes.length ∧
      (second.2.result.isSuccess = true → second.2.bytesWritten = crlf.bytes.length)) ∨
    (second.2.result.isSuccess = false ∧
      crlf.bytes.take second.2.bytesWritten <+: (lineBytes (some t)).drop first.2.bytesWritten)

theorem writeLine_complete_iff (s : Output σ) (t : Text) :
    Complete (lineBytes (some t)) s (writeLine d s (some t)) ↔ LineDelivered d s t := by
  obtain ⟨first, hfirst⟩ : ∃ first, write d s t.bytes = first := ⟨_, rfl⟩
  obtain ⟨second, hsecond⟩ : ∃ second, write d first.1 crlf.bytes = second := ⟨_, rfl⟩
  have n_le : first.2.bytesWritten ≤ t.bytes.length := hfirst ▸ d.bytesWritten_le s.state t.bytes
  have m_le : second.2.bytesWritten ≤ crlf.bytes.length :=
    hsecond ▸ d.bytesWritten_le first.1.state crlf.bytes
  have hpart : first.1.accepted = s.accepted ++ t.bytes.take first.2.bytesWritten := hfirst ▸ rfl
  have hline : lineBytes (some t) = t.bytes ++ crlf.bytes := rfl
  unfold LineDelivered
  simp only [writeLine, writeText, hfirst, hsecond]
  cases hr : first.2.result.isSuccess with
  | false =>
    simp only [Bool.false_eq_true, if_false, true_or, iff_true]
    rw [complete_of_accepted hpart, hr, hline]
    exact ⟨(List.take_prefix _ _).trans (List.prefix_append _ _), nofun⟩
  | true =>
    have accepted : second.1.accepted = s.accepted ++
        (t.bytes.take first.2.bytesWritten ++ crlf.bytes.take second.2.bytesWritten) := by
      have grown : second.1.accepted = first.1.accepted ++ crlf.bytes.take second.2.bytesWritten :=
        hsecond ▸ rfl
      rw [grown, hpart, List.append_assoc]
    simp only [if_true, Bool.true_eq_false, false_or]
    rw [complete_of_accepted (r := (second.1, second.2.result)) accepted, hline, prefix_after_part n_le,
      parts_eq_whole n_le m_le]
    constructor
    · rintro ⟨within, hwhole⟩
      cases hs : second.2.result.isSuccess with
      | true => exact .inl ⟨(hwhole hs).1, fun _ => (hwhole hs).2⟩
      | false => exact .inr ⟨rfl, within⟩
    · rintro (⟨hn, hm⟩ | ⟨hs, within⟩)
      · refine ⟨?_, fun hs => ⟨hn, hm hs⟩⟩
        rw [hn, List.drop_left]
        exact List.take_prefix _ _
      · exact ⟨within, fun hs' => absurd (hs'.symm.trans hs) nofun⟩

/-- For which devices the text helpers deliver what they report. -/
theorem text_output_complete_iff (d : Device σ) (s : Output σ) :
    (∀ value, Complete [value] s (writeByte d s value) ↔
      ((write d s [value]).2.result.isSuccess = true → (write d s [value]).2.bytesWritten = 1)) ∧
    (∀ t : Text, Complete t.bytes s (writeText d s (some t)) ↔
      ((write d s t.bytes).2.result.isSuccess = true →
        (write d s t.bytes).2.bytesWritten = t.bytes.length)) ∧
    (∀ t, Complete (lineBytes (some t)) s (writeLine d s (some t)) ↔ LineDelivered d s t) ∧
    (Complete (lineBytes none) s (writeLine d s none) ↔
      ((write d s crlf.bytes).2.result.isSuccess = true →
        (write d s crlf.bytes).2.bytesWritten = crlf.bytes.length)) :=
  ⟨writeByte_complete_iff s, writeText_complete_iff s, writeLine_complete_iff s,
    writeText_complete_iff s crlf⟩

def lossyDevice : Device Unit where
  write := fun _ data => ((), ⟨succeeded, if data.length ≤ 2 then data.length else data.length - 1⟩)
  bytesWritten_le := by
    intro _ data
    change (if data.length ≤ 2 then data.length else data.length - 1) ≤ data.length
    split <;> omega

theorem text_output_hole :
    ¬ Complete (lineBytes (some ⟨[97, 98, 99], by decide⟩)) ⟨(), []⟩
      (writeLine lossyDevice ⟨(), []⟩ (some ⟨[97, 98, 99], by decide⟩)) := by
  have accepted : (writeLine lossyDevice ⟨(), []⟩ (some ⟨[97, 98, 99], by decide⟩)).1.accepted =
      [] ++ [97, 98, 13, 10] := by decide
  rw [complete_of_accepted accepted]
  decide

end

end ESPressioSystem.ByteOutput
