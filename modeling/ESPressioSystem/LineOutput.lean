import ESPressioSystem.ByteOutput
import ESPressioSystem.LineFraming

set_option autoImplicit false

/-!
# Lines written piece by piece, as the reader of the bytes sees them
-/
namespace ESPressioSystem.LineOutput
open Platform ByteOutput LineFraming

inductive Piece where
  | data (bytes : List UInt8)
  | byte (value : UInt8)
  | text (text : Option Text)

/-- What a caller writes with any number of calls, the last of which is `WriteLine`. -/
structure Line where
  pieces : List Piece
  last : Option Text

def Piece.bytes : Piece → List UInt8
  | .data bytes => bytes
  | .byte value => [value]
  | .text t => t.elim [] Text.bytes

def Line.content (l : Line) : List UInt8 :=
  l.pieces.flatMap Piece.bytes ++ l.last.elim [] Text.bytes

section
variable {σ : Type}

def Honest (d : Device σ) : Prop :=
  ∀ s data, (d.write s data).2.result.isSuccess = true →
    (d.write s data).2.bytesWritten = data.length

def writePiece (d : Device σ) (s : Output σ) : Piece → Output σ × PlatformResult
  | .data bytes =>
    let r := write d s bytes
    (r.1, r.2.result)
  | .byte value => writeByte d s value
  | .text t => writeText d s t

/-- The caller goes on only after a success. -/
def writePieces (d : Device σ) (s : Output σ) : List Piece → Output σ × PlatformResult
  | [] => (s, succeeded)
  | p :: pieces =>
    let r := writePiece d s p
    if r.2.isSuccess then writePieces d r.1 pieces else r

def writeWhole (d : Device σ) (s : Output σ) (l : Line) : Output σ × PlatformResult :=
  let r := writePieces d s l.pieces
  if r.2.isSuccess then writeLine d r.1 l.last else r

/-- The lines up to the first that fails, and how many have been written. -/
def writeLines (d : Device σ) (s : Output σ) : List Line → Output σ × ℕ
  | [] => (s, 0)
  | l :: lines =>
    let r := writeWhole d s l
    if r.2.isSuccess then
      let later := writeLines d r.1 lines
      (later.1, later.2 + 1)
    else (r.1, 0)

variable {d : Device σ} {s : Output σ}

theorem complete_then {whole rest : List UInt8} {r q : Output σ × PlatformResult}
    (first : Complete whole s r) (second : Complete rest r.1 q) :
    Complete (whole ++ rest) s (if r.2.isSuccess then q else r) := by
  obtain ⟨new, accepted, within, full⟩ := first
  cases hr : r.2.isSuccess with
  | false =>
    refine ⟨new, accepted, within.trans (List.prefix_append _ _), fun success => ?_⟩
    rw [if_neg Bool.false_ne_true, hr] at success
    cases success
  | true =>
    obtain ⟨later, accepted', within', full'⟩ := second
    have whole_new := full hr
    refine ⟨new ++ later, ?_, ?_, fun success => ?_⟩
    · rw [if_pos rfl, accepted', accepted, List.append_assoc]
    · rw [whole_new]
      exact (List.prefix_append_right_inj _).mpr within'
    · rw [if_pos rfl] at success
      rw [whole_new, full' success]

theorem line_delivered (honest : Honest d) (s : Output σ) (t : Text) : LineDelivered d s t := by
  unfold LineDelivered
  cases hr : (write d s t.bytes).2.result.isSuccess with
  | false => exact .inl hr
  | true => exact .inr (.inl ⟨honest _ _ hr, honest _ _⟩)

theorem writeLine_complete (honest : Honest d) (s : Output σ) (text : Option Text) :
    Complete (lineBytes text) s (writeLine d s text) := by
  cases text with
  | none => exact (writeText_complete_iff s crlf).mpr (honest _ _)
  | some t => exact (writeLine_complete_iff s t).mpr (line_delivered honest s t)

theorem writePiece_complete (honest : Honest d) (s : Output σ) (p : Piece) :
    Complete p.bytes s (writePiece d s p) := by
  cases p with
  | data bytes => exact (write_complete_iff s bytes).mpr (honest _ _)
  | byte value => exact (writeByte_complete_iff s value).mpr (honest _ _)
  | text t =>
    cases t with
    | none => exact ⟨[], (List.append_nil _).symm, List.nil_prefix, fun _ => rfl⟩
    | some t => exact (writeText_complete_iff s t).mpr (honest _ _)

theorem writePieces_complete (honest : Honest d) (s : Output σ) (pieces : List Piece) :
    Complete (pieces.flatMap Piece.bytes) s (writePieces d s pieces) := by
  induction pieces generalizing s with
  | nil => exact ⟨[], (List.append_nil _).symm, List.nil_prefix, fun _ => rfl⟩
  | cons p pieces ih => exact complete_then (writePiece_complete honest s p) (ih _)

theorem writeWhole_complete (honest : Honest d) (s : Output σ) (l : Line) :
    Complete (l.content ++ [13, 10]) s (writeWhole d s l) := by
  have both := complete_then (writePieces_complete honest s l.pieces)
    (writeLine_complete honest (writePieces d s l.pieces).1 l.last)
  rw [lineBytes, ← List.append_assoc] at both
  exact both

theorem writeLines_accepted (honest : Honest d) (s : Output σ) (lines : List Line) :
    (writeLines d s lines).2 ≤ lines.length ∧
      ∃ new, (writeLines d s lines).1.accepted = s.accepted ++ new ∧
        framed 13 10 ((lines.map Line.content).take (writeLines d s lines).2) <+: new ∧
        new <+: framed 13 10 ((lines.map Line.content).take ((writeLines d s lines).2 + 1)) := by
  induction lines generalizing s with
  | nil => exact ⟨Nat.le_refl 0, [], (List.append_nil _).symm, List.nil_prefix, List.nil_prefix⟩
  | cons l lines ih =>
    obtain ⟨new, accepted, within, full⟩ := writeWhole_complete honest s l
    have step : ∀ n, framed 13 10 (((l :: lines).map Line.content).take (n + 1)) =
        (l.content ++ [13, 10]) ++ framed 13 10 ((lines.map Line.content).take n) := by
      intro n
      simp [framed]
    cases hr : (writeWhole d s l).2.isSuccess with
    | false =>
      have stopped : writeLines d s (l :: lines) = ((writeWhole d s l).1, 0) := by
        simp only [writeLines, hr, Bool.false_eq_true, if_false]
      rw [stopped]
      refine ⟨Nat.zero_le _, new, accepted, List.nil_prefix, ?_⟩
      rw [step, List.take_zero]
      exact within.trans (List.prefix_append _ _)
    | true =>
      obtain ⟨count, later, accepted', least, most⟩ := ih (writeWhole d s l).1
      have went : writeLines d s (l :: lines) =
          ((writeLines d (writeWhole d s l).1 lines).1,
            (writeLines d (writeWhole d s l).1 lines).2 + 1) := by
        simp only [writeLines, hr, if_true]
      rw [went]
      refine ⟨Nat.succ_le_succ count, new ++ later, ?_, ?_, ?_⟩
      · rw [accepted', accepted, List.append_assoc]
      · rw [step, full hr]
        exact (List.prefix_append_right_inj _).mpr least
      · rw [step, full hr]
        exact (List.prefix_append_right_inj _).mpr most

/-- Lines written piece by piece, up to the first call that fails, are read back as they were
written: all that are reported as written, and at most one more. When all are written, the stream
falls apart into them exactly if no line has a terminator of its own inside, be it across pieces. -/
theorem written_lines_read_back (honest : Honest d) (s : Output σ) (lines : List Line) :
    ∃ new, (writeLines d s lines).1.accepted = s.accepted ++ new ∧
      ((∀ l ∈ lines, Unbroken 13 10 l.content) →
        (readLines 13 10 new).1 <+: lines.map Line.content ∧
          (writeLines d s lines).2 ≤ (readLines 13 10 new).1.length ∧
          (readLines 13 10 new).1.length ≤ (writeLines d s lines).2 + 1) ∧
      ((writeLines d s lines).2 = lines.length →
        (readLines 13 10 new = (lines.map Line.content, []) ↔
          ∀ l ∈ lines, Unbroken 13 10 l.content)) := by
  obtain ⟨count, new, accepted, least, most⟩ := writeLines_accepted honest s lines
  refine ⟨new, accepted, fun unbroken => ?_, fun all => ?_⟩
  · have different : (13 : UInt8) ≠ 10 := by decide
    have contents : ∀ c ∈ lines.map Line.content, Unbroken 13 10 c := by simpa using unbroken
    exact readLines_between different contents (by simpa using count) least most
  · have whole : new = framed 13 10 (lines.map Line.content) := by
      have length : (lines.map Line.content).length = lines.length := List.length_map _
      rw [all, List.take_of_length_le length.le] at least
      rw [all, List.take_of_length_le (by omega)] at most
      exact (least.eq_of_length_le most.length_le).symm
    rw [whole, readLines_framed_iff (by decide)]
    simp

def boundedDevice : Device ℕ where
  write := fun room data => (room - data.length,
    ⟨if data.length ≤ room then succeeded else failed .timeout 0, min room data.length⟩)
  bytesWritten_le := fun room data => Nat.min_le_right room data.length

theorem boundedDevice_honest : Honest boundedDevice := by
  intro room data success
  change (if data.length ≤ room then succeeded else failed .timeout 0).isSuccess = true at success
  change min room data.length = data.length
  split at success
  · omega
  · cases success

theorem written_lines_read_back_bounded :
    ∃ new, (writeLines boundedDevice ⟨5, []⟩
        [⟨[.byte 97], none⟩, ⟨[.data [98]], none⟩, ⟨[], none⟩]).1.accepted = [] ++ new ∧
      (readLines 13 10 new).1 <+: [[97], [98], []] := by
  have unbroken : ∀ l ∈ [⟨[.byte 97], none⟩, ⟨[.data [98]], none⟩, (⟨[], none⟩ : Line)],
      Unbroken 13 10 l.content := by decide
  obtain ⟨new, accepted, read, _⟩ := written_lines_read_back boundedDevice_honest ⟨5, []⟩
    [⟨[.byte 97], none⟩, ⟨[.data [98]], none⟩, ⟨[], none⟩]
  exact ⟨new, accepted, (read unbroken).1⟩

end

end ESPressioSystem.LineOutput
