import Zshrs.Daemon.WireFormat

namespace Zshrs.Daemon.Ipc

open Json Serde Lib

theorem readU32_writeU32 {n : Nat} (h : n < 2 ^ 32) : readU32 (writeU32 n) = n := by
  simp only [readU32, writeU32, List.foldl_cons, List.foldl_nil, UInt8.toNat_ofNat']
  omega

theorem readExact_append {n : Nat} {buf : List UInt8} (h : buf.length = n) (rest : List UInt8) :
    readExact n (buf ++ rest) = .ok (buf, rest) := by
  subst h
  simp [readExact]

theorem readFrameSync_written {json : SerdeJson} {body : List UInt8} (hne : body ≠ [])
    (hlen : body.length ≤ maxFrameBytes) (rest : List UInt8) :
    readFrameSync json (writeU32 body.length ++ body ++ rest) =
      match (json.fromSlice body).bind Frame.decode with
      | none => .error .json
      | some frame => .ok (frame, rest) := by
  have hheader : readU32 (writeU32 body.length) = body.length := by
    apply readU32_writeU32
    simp only [maxFrameBytes] at hlen
    omega
  have hpos : body.length ≠ 0 := by simpa using hne
  have hfits : ¬ body.length > maxFrameBytes := by omega
  have hbuf : readExact 4 (writeU32 body.length ++ (body ++ rest)) =
      .ok (writeU32 body.length, body ++ rest) := readExact_append (by simp [writeU32]) _
  have hbody : readExact body.length (body ++ rest) = .ok (body, rest) := readExact_append rfl _
  cases hread : (json.fromSlice body).bind Frame.decode <;>
    simp only [List.append_assoc, readFrameSync, hbuf, Except.bind, bind, hheader, if_neg hpos,
      if_neg hfits, hbody, hread]

theorem writeFrameSync_ok {json : SerdeJson} {writer bytes : List UInt8} {frame : Frame}
    (h : writeFrameSync json writer frame = .ok bytes) :
    ∃ doc, frame.encode = some doc ∧ (json.toVec doc).length ≤ maxFrameBytes ∧
      bytes = writer ++ (writeU32 (json.toVec doc).length ++ json.toVec doc) := by
  simp only [writeFrameSync] at h
  cases hdoc : frame.encode with
  | none => simp [hdoc] at h
  | some doc =>
      simp only [hdoc] at h
      split at h
      · cases h
      · rename_i hfits
        refine ⟨doc, rfl, by omega, ?_⟩
        cases h
        rw [List.append_assoc]

/-- The printer and the parser agree on the documents of these frames. -/
def Exact (json : SerdeJson) (frames : List Frame) : Prop :=
  ∀ frame ∈ frames, ∀ doc ∈ frame.encode, json.fromSlice (json.toVec doc) = some doc

theorem reads_cons_iff {json : SerdeJson} {frame : Frame} {doc : Value} {frames : List Frame}
    {rest : List UInt8} (hdoc : frame.encode = some doc) (hobj : frame.objectPayload)
    (hexact : json.fromSlice (json.toVec doc) = some doc)
    (hfits : (json.toVec doc).length ≤ maxFrameBytes) :
    Reads json (writeU32 (json.toVec doc).length ++ json.toVec doc ++ rest) (frame :: frames) ↔
      frame.unambiguous = true ∧ Reads json rest frames := by
  have hne : json.toVec doc ≠ [] := by
    intro hnil
    rw [hnil, json.fromSlice_nil] at hexact
    cases hexact
  rw [Reads, readFrameSync_written hne hfits, hexact, Option.bind_some,
    ← Frame.decode_encode_iff hobj hdoc]
  cases hread : Frame.decode doc with
  | none => simp
  | some got =>
      constructor
      · rintro ⟨rest', hok, hrest⟩
        cases hok
        exact ⟨rfl, hrest⟩
      · rintro ⟨hgot, hrest⟩
        cases hgot
        exact ⟨rest, rfl, hrest⟩

theorem reads_written {json : SerdeJson} {frames : List Frame} (hexact : Exact json frames)
    (hobj : ∀ frame ∈ frames, frame.objectPayload) {writer bytes : List UInt8}
    (hwrite : writeFrames json writer frames = .ok bytes) :
    ∃ tail, bytes = writer ++ tail ∧
      (Reads json tail frames ↔ ∀ frame ∈ frames, frame.unambiguous = true) := by
  induction frames generalizing writer with
  | nil =>
      cases hwrite
      exact ⟨[], by simp, by simp [Reads, readFrameSync, readExact, bind, Except.bind]⟩
  | cons frame frames ih =>
      rw [writeFrames, List.foldlM_cons] at hwrite
      cases hfirst : writeFrameSync json writer frame with
      | error e => simp [hfirst, bind, Except.bind] at hwrite
      | ok first =>
          rw [hfirst] at hwrite
          obtain ⟨doc, hdoc, hfits, rfl⟩ := writeFrameSync_ok hfirst
          obtain ⟨tail, rfl, htail⟩ := ih (fun f hf => hexact f (List.mem_cons_of_mem _ hf))
            (fun f hf => hobj f (List.mem_cons_of_mem _ hf)) hwrite
          refine ⟨writeU32 (json.toVec doc).length ++ json.toVec doc ++ tail, by simp, ?_⟩
          rw [reads_cons_iff hdoc (hobj frame List.mem_cons_self)
            (hexact frame List.mem_cons_self doc hdoc) hfits, htail]
          simp

/-- Frames come back one by one as they were written exactly when the payload of each carries
none of the keys by which another variant, or a repeated field, is recognised. -/
theorem reads_writeFrames_iff (json : SerdeJson) (frames : List Frame) (bytes : List UInt8)
    (hexact : Exact json frames) (hobj : ∀ frame ∈ frames, frame.objectPayload)
    (hwrite : writeFrames json [] frames = .ok bytes) :
    Reads json bytes frames ↔ ∀ frame ∈ frames, frame.unambiguous = true := by
  obtain ⟨tail, rfl, htail⟩ := reads_written hexact hobj hwrite
  exact htail

/-- `serde_json` on one document. -/
def jsonOf (doc : Value) (text : String) : SerdeJson where
  toVec := fun _ => text.toList.map (fun c => UInt8.ofNat c.toNat)
  fromSlice := fun slice =>
    if slice ≠ [] ∧ slice = text.toList.map (fun c => UInt8.ofNat c.toNat) then some doc else none
  fromSlice_nil := by simp

def ping : Frame := .request 7 "ping" ⟨.object [], .object List.Pairwise.nil (by simp)⟩

def pingJson : SerdeJson :=
  jsonOf (.object [("id", ofU64 7), ("op", .string "ping"), ("args", .object [])])
    "\x7b\"id\":7,\"op\":\"ping\",\"args\":\x7b\x7d\x7d"

def written (json : SerdeJson) (frames : List Frame) : List UInt8 :=
  match writeFrames json [] frames with
  | .ok bytes => bytes
  | .error _ => []

theorem sorted_exited (v w : Value) : SortedMap.Sorted [("exit_code", v), ("job_id", w)] := by
  have hlt : "exit_code" < "job_id" := String.lt_iff_toList_lt.mpr (by decide)
  simpa [SortedMap.Sorted] using hlt

/-- A client is told that job 5 has ended. -/
def exited : Frame :=
  .event "job_exited" ⟨.object [("exit_code", ofU64 0), ("job_id", ofU64 5)],
    .object (sorted_exited _ _) (by simp [Canonical.number, ofU64])⟩

def exitedDoc : Value := .object [("event", .string "job_exited"), ("exit_code", ofU64 0), ("job_id", ofU64 5)]

def exitedText : List UInt8 :=
  "\x7b\"event\":\"job_exited\",\"exit_code\":0,\"job_id\":5\x7d".toList.map fun c => UInt8.ofNat c.toNat

/-- `serde_json` on the request and the event. -/
def pingExitedJson : SerdeJson where
  toVec doc := if (doc.get "event").isSome then exitedText else pingJson.toVec doc
  fromSlice slice := if slice = exitedText then some exitedDoc else pingJson.fromSlice slice
  fromSlice_nil := by decide

theorem reads_ping_exited_iff :
    Reads pingExitedJson (written pingExitedJson [ping, exited]) [ping, exited] ↔
      ∀ frame ∈ [ping, exited], frame.unambiguous = true := by
  refine reads_writeFrames_iff pingExitedJson [ping, exited] _ ?_ ?_ rfl
  · intro frame hframe doc hdoc
    rcases List.mem_pair.mp hframe with rfl | rfl
    · cases hdoc
      rfl
    · cases hdoc
      rfl
  · intro frame hframe
    rcases List.mem_pair.mp hframe with rfl | rfl
    · trivial
    · exact ⟨_, rfl⟩

theorem sorted_removed (v w : Value) : SortedMap.Sorted [("id", v), ("removed", w)] := by
  have hlt : "id" < "removed" := String.lt_iff_toList_lt.mpr (by decide)
  simpa [SortedMap.Sorted] using hlt

/-- What the daemon answers to `schedule_remove` with `id` 5. -/
def removeReply : Frame :=
  .okResponse 7 ⟨.object [("id", ofU64 5), ("removed", .bool true)],
    .object (sorted_removed _ _) (by simp [Canonical.number, ofU64, Canonical.bool])⟩

def removeJson : SerdeJson :=
  jsonOf (.object [("id", ofU64 7), ("ok", .bool true), ("id", ofU64 5), ("removed", .bool true)])
    "\x7b\"id\":7,\"ok\":true,\"id\":5,\"removed\":true\x7d"

/-- The reply has `id` twice; the client cannot read it. -/
theorem removeReply_unreadable :
    Exact removeJson [removeReply] ∧ removeReply.objectPayload ∧
      writeFrames removeJson [] [removeReply] = .ok (written removeJson [removeReply]) ∧
      readFrameSync removeJson (written removeJson [removeReply]) = .error .json ∧
      ¬ Reads removeJson (written removeJson [removeReply]) [removeReply] := by
  have hread : readFrameSync removeJson (written removeJson [removeReply]) = .error .json := by
    rfl
  refine ⟨?_, ⟨_, rfl⟩, rfl, hread, ?_⟩
  · intro frame hframe doc hdoc
    obtain rfl := List.mem_singleton.mp hframe
    cases hdoc
    rfl
  · rintro ⟨rest, hok, _⟩
    rw [hread] at hok
    cases hok

end Zshrs.Daemon.Ipc
