import Mathlib.Data.List.TakeDrop
import Zshrs.Lib.Utf8

namespace Zshrs.Daemon.JobsOutput

open Lib

abbrev Bytes := List UInt8

def NEWLINE : UInt8 := 10

/-- What a job writes to a stream until it closes, as the reader gets it: a read of no bytes is the end. -/
structure Stream where
  chunks : List Bytes
  nonempty : ∀ chunk ∈ chunks, chunk ≠ []

def Stream.bytes (s : Stream) : Bytes := s.chunks.flatten

/-- `read_until` over the reads of a `BufReader`: the bytes up to a newline, and what is left. -/
def read_until : List Bytes → Bytes × List Bytes
  | [] => ([], [])
  | chunk :: chunks =>
      match chunk.findIdx? (· == NEWLINE) with
      | some p =>
          (chunk.take (p + 1), if p + 1 < chunk.length then chunk.drop (p + 1) :: chunks else chunks)
      | none => (chunk ++ (read_until chunks).1, (read_until chunks).2)

/-- `read_line` appends a line to a `String`. It fails on a line that is not UTF-8. -/
def read_line (chunks : List Bytes) : Option (Bytes × List Bytes) :=
  if Utf8.valid (read_until chunks).1 then some (read_until chunks) else none

/-- The `data` and `bytes` of a published event. -/
structure Event where
  data : Bytes
  bytes : Nat
  deriving DecidableEq

/-- What a drained stream leaves: its output file, its counter in the job's record and its events. -/
structure Output where
  file : Bytes
  bytes : Nat
  events : List Event
  deriving DecidableEq

/-- `submit` has truncated the file. -/
def Output.fresh : Output := ⟨[], 0, []⟩

def Output.add (o : Output) (line : Bytes) : Output :=
  ⟨o.file ++ line, o.bytes + line.length, o.events ++ [⟨line, line.length⟩]⟩

theorem read_until_flatten (chunks : List Bytes) :
    (read_until chunks).1 ++ (read_until chunks).2.flatten = chunks.flatten := by
  induction chunks with
  | nil => rfl
  | cons chunk chunks ih =>
      rw [read_until]
      split
      · rename_i p _
        dsimp only
        split
        · rw [List.flatten_cons, ← List.append_assoc, List.take_append_drop]
          rfl
        · rw [List.take_of_length_le (by omega)]
          rfl
      · rw [List.append_assoc, ih]
        rfl

theorem read_line_some {chunks : List Bytes} {line : Bytes} {rest : List Bytes}
    (h : read_line chunks = some (line, rest)) :
    Utf8.valid line = true ∧ read_until chunks = (line, rest) ∧ chunks.flatten = line ++ rest.flatten := by
  rw [read_line] at h
  split at h
  · rename_i hvalid
    have hread := Option.some.inj h
    have hflat := read_until_flatten chunks
    rw [hread] at hvalid hflat
    exact ⟨hvalid, hread, hflat.symm⟩
  · cases h

/-- The loop of `drain_stream`: it ends with the stream or at the first line it cannot read. -/
def drain_loop (chunks : List Bytes) (o : Output) : Output :=
  match h : read_line chunks with
  | none => o
  | some (line, rest) =>
      if hline : line = [] then o
      else drain_loop rest (o.add line)
termination_by chunks.flatten.length
decreasing_by
  rw [(read_line_some h).2.2, List.length_append]
  have hpos := List.length_pos_iff.mpr hline
  omega

def drain_stream (s : Stream) : Output := drain_loop s.chunks .fresh

/-- The output file is what the job wrote, and the counter is its length. -/
structure Captured (s : Stream) (o : Output) : Prop where
  file : o.file = s.bytes
  bytes : o.bytes = s.bytes.length

instance (s : Stream) (o : Output) : Decidable (Captured s o) :=
  decidable_of_iff (o.file = s.bytes ∧ o.bytes = s.bytes.length)
    ⟨fun h => ⟨h.1, h.2⟩, fun h => ⟨h.file, h.bytes⟩⟩

/-- A line ends with a newline or with the stream, and only the end of the stream is an empty one. -/
theorem read_until_line {chunks : List Bytes} (h : ∀ chunk ∈ chunks, chunk ≠ []) :
    (∀ chunk ∈ (read_until chunks).2, chunk ≠ []) ∧
      ((read_until chunks).2 = [] ∨ ∃ s, (read_until chunks).1 = s ++ [NEWLINE]) ∧
      ((read_until chunks).1 = [] → chunks = []) := by
  induction chunks with
  | nil => exact ⟨h, .inl rfl, fun _ => rfl⟩
  | cons chunk chunks ih =>
      obtain ⟨hchunk, hchunks⟩ := List.forall_mem_cons.mp h
      obtain ⟨hrest, hend, -⟩ := ih hchunks
      rw [read_until]
      split
      · rename_i p hp
        obtain ⟨hlt, hnl, -⟩ := List.findIdx?_eq_some_iff_getElem.mp hp
        have hline : chunk.take (p + 1) = chunk.take p ++ [NEWLINE] := by
          rw [List.take_add_one, List.getElem?_eq_getElem hlt, eq_of_beq hnl]
          rfl
        refine ⟨?_, .inr ⟨_, hline⟩, ?_⟩
        · dsimp only
          split
          · rw [List.forall_mem_cons]
            refine ⟨?_, hchunks⟩
            rw [Ne, List.drop_eq_nil_iff]
            omega
          · exact hchunks
        · intro hnil
          rw [hline] at hnil
          exact absurd hnil (List.append_ne_nil_of_right_ne_nil _ (List.cons_ne_nil _ _))
      · refine ⟨hrest, ?_, ?_⟩
        · apply hend.imp_right
          rintro ⟨s, hs⟩
          exact ⟨chunk ++ s, by rw [hs, List.append_assoc]⟩
        · intro hnil
          exact absurd (List.append_eq_nil_iff.mp hnil).1 hchunk

/-- The loop takes whole lines from the front of the stream, all of them if it is UTF-8. -/
theorem drain_loop_takes {chunks : List Bytes} (h : ∀ chunk ∈ chunks, chunk ≠ []) (o : Output) :
    ∃ taken, taken <+: chunks.flatten ∧ (taken = chunks.flatten ↔ Utf8.valid chunks.flatten = true) ∧
      (drain_loop chunks o).file = o.file ++ taken ∧ (drain_loop chunks o).bytes = o.bytes + taken.length := by
  fun_induction drain_loop chunks o with
  | case1 chunks o hread =>
      have hline : ¬ Utf8.valid (read_until chunks).1 = true := by
        intro hvalid
        rw [read_line, if_pos hvalid] at hread
        cases hread
      have hinvalid : ¬ Utf8.valid chunks.flatten = true := by
        rw [← read_until_flatten chunks]
        rcases (read_until_line h).2.1 with hend | ⟨s, hs⟩
        · rw [hend, List.flatten_nil, List.append_nil]
          exact hline
        · rw [hs] at hline ⊢
          rw [Utf8.valid_cut (by decide), Bool.and_eq_true]
          exact fun hboth => hline hboth.1
      refine ⟨[], List.nil_prefix, ?_, (List.append_nil _).symm, rfl⟩
      constructor
      · intro hnil
        rw [← hnil] at hinvalid
        exact absurd rfl hinvalid
      · exact fun hvalid => absurd hvalid hinvalid
  | case2 chunks o rest hread =>
      obtain ⟨-, huntil, hflat⟩ := read_line_some hread
      have hnil : chunks = [] := (read_until_line h).2.2 (by rw [huntil])
      rw [hnil]
      exact ⟨[], List.nil_prefix, ⟨fun _ => rfl, fun _ => rfl⟩, (List.append_nil _).symm, rfl⟩
  | case3 chunks o line rest hread hline ih =>
      obtain ⟨hvalid, huntil, hflat⟩ := read_line_some hread
      obtain ⟨hrest, hend, -⟩ := read_until_line h
      rw [huntil] at hrest hend
      obtain ⟨taken, hprefix, hall, hfile, hbytes⟩ := ih hrest
      have hcut : Utf8.valid (line ++ rest.flatten) = Utf8.valid rest.flatten := by
        rcases hend with hend | ⟨s, hs⟩
        · have hend : rest = [] := hend
          rw [hend, List.flatten_nil, List.append_nil, hvalid]
          rfl
        · have hs : line = s ++ [NEWLINE] := hs
          rw [hs] at hvalid ⊢
          rw [Utf8.valid_cut (by decide), hvalid, Bool.true_and]
      refine ⟨line ++ taken, ?_, ?_, ?_, ?_⟩
      · rw [hflat]
        exact (List.prefix_append_right_inj line).mpr hprefix
      · rw [hflat, List.append_right_inj, hcut, hall]
      · rw [hfile, Output.add, List.append_assoc]
      · rw [hbytes, Output.add, List.length_append, Nat.add_assoc]

theorem drained (s : Stream) :
    ∃ taken, taken <+: s.bytes ∧ (taken = s.bytes ↔ Utf8.valid s.bytes = true) ∧
      (drain_stream s).file = taken ∧ (drain_stream s).bytes = taken.length := by
  obtain ⟨taken, hprefix, hall, hfile, hbytes⟩ := drain_loop_takes s.nonempty .fresh
  exact ⟨taken, hprefix, hall, hfile, hbytes.trans (Nat.zero_add _)⟩

/-- Subscribers see what the file gets. -/
theorem events_are_file {chunks : List Bytes} {o : Output} (h : (o.events.map Event.data).flatten = o.file) :
    ((drain_loop chunks o).events.map Event.data).flatten = (drain_loop chunks o).file := by
  fun_induction drain_loop chunks o with
  | case1 chunks o hread => exact h
  | case2 chunks o rest hread => exact h
  | case3 chunks o line rest hread hline ih =>
      apply ih
      simp only [Output.add, List.map_append, List.flatten_append, h, List.map_cons, List.map_nil,
        List.flatten_cons, List.flatten_nil, List.append_nil]

/-- A stream is captured if it is UTF-8, however it is chunked, and only then. -/
theorem captured_iff (s : Stream) : Captured s (drain_stream s) ↔ Utf8.valid s.bytes = true := by
  obtain ⟨taken, -, hall, hfile, hbytes⟩ := drained s
  rw [← hall]
  constructor
  · intro h
    rw [← hfile, h.file]
  · intro h
    exact ⟨by rw [hfile, h], by rw [hbytes, h]⟩

/-- Two lines, the second of them with a byte that no UTF-8 text has. -/
def binary : Stream := ⟨[[0x6f, 0x6b, 0x0a, 0xff], [0x0a]], by decide⟩

theorem binary_not_captured : ¬ Captured binary (drain_stream binary) := by
  obtain ⟨taken, -, hall, hfile, -⟩ := drained binary
  intro h
  have hvalid : Utf8.valid binary.bytes = true := hall.mp (hfile.symm.trans h.file)
  exact absurd hvalid (by decide)

end Zshrs.Daemon.JobsOutput
