import Zshrs.Daemon.Serde

namespace Zshrs.Daemon.Ipc

open Json Serde

def maxFrameBytes : Nat := 64 * 1024 * 1024

structure Hello where
  version : UInt32
  clientPid : Int32
  tty : Option String
  cwd : Option String
  argv0 : Option String
  shellPid : Option Int32
  shellStart : Option UInt64
  deriving DecidableEq, Repr

structure Welcome where
  version : UInt32
  clientId : UInt64
  shellId : UInt64
  sessionId : String
  daemonPid : Int32
  daemonUptimeMs : UInt64
  deriving DecidableEq, Repr

inductive Frame
  | hello (hello : Hello)
  | welcome (welcome : Welcome)
  | welcomeErr (welcome : JsonValue) (err : ErrPayload)
  | request (id : UInt64) (op : String) (args : JsonValue)
  | response (id : UInt64) (ok : Bool) (payload : JsonValue)
  | event (event : String) (payload : JsonValue)

def Frame.okResponse (id : UInt64) (payload : JsonValue) : Frame := .response id true payload

def errPayload (err : ErrPayload) : Value := .object [("code", .string err.code), ("msg", .string err.msg)]

/-- `skip_serializing_if = "Option::is_none"`. -/
def skipNone {α : Type} (key : String) (encode : α → Value) (a : Option α) : List (String × Value) :=
  (a.map (fun a => (key, encode a))).toList

def Hello.encode (h : Hello) : Value :=
  .object ([("version", ofU32 h.version), ("client_pid", ofI32 h.clientPid),
    ("tty", ofOption .string h.tty), ("cwd", ofOption .string h.cwd),
    ("argv0", ofOption .string h.argv0)] ++ skipNone "shell_pid" ofI32 h.shellPid ++
    skipNone "shell_start" ofU64 h.shellStart)

def Welcome.encode (w : Welcome) : Value :=
  .object [("version", ofU32 w.version), ("client_id", ofU64 w.clientId),
    ("shell_id", ofU64 w.shellId), ("session_id", .string w.sessionId),
    ("daemon_pid", ofI32 w.daemonPid), ("daemon_uptime_ms", ofU64 w.daemonUptimeMs)]

/-- A flattened value: only maps and units have entries to put beside the others. -/
def flatten : Value → Option (List (String × Value))
  | .object fields => some fields
  | .null => some []
  | _ => none

def Frame.encode : Frame → Option Value
  | .hello h => some (.object [("hello", h.encode)])
  | .welcome w => some (.object [("welcome", w.encode)])
  | .welcomeErr w err => some (.object [("welcome", w.val), ("err", errPayload err)])
  | .request id op args => some (.object [("id", ofU64 id), ("op", .string op), ("args", args.val)])
  | .response id ok payload =>
      (flatten payload.val).map (fun rest => .object (("id", ofU64 id) :: ("ok", .bool ok) :: rest))
  | .event name payload =>
      (flatten payload.val).map (fun rest => .object (("event", .string name) :: rest))

def Hello.decode (v : Value) : Option Hello := do
  let f ← structFields
    ["version", "client_pid", "tty", "cwd", "argv0", "shell_pid", "shell_start"] 5 v
  some {
    version := ← requireField asU32 (f "version")
    clientPid := ← requireField asI32 (f "client_pid")
    tty := ← optionField Value.asStr (f "tty")
    cwd := ← optionField Value.asStr (f "cwd")
    argv0 := ← optionField Value.asStr (f "argv0")
    shellPid := ← optionField asI32 (f "shell_pid")
    shellStart := ← optionField Value.asU64 (f "shell_start") }

def Welcome.decode (v : Value) : Option Welcome := do
  let f ← structFields
    ["version", "client_id", "shell_id", "session_id", "daemon_pid", "daemon_uptime_ms"] 6 v
  some {
    version := ← requireField asU32 (f "version")
    clientId := ← requireField Value.asU64 (f "client_id")
    shellId := ← defaultField 0 Value.asU64 (f "shell_id")
    sessionId := ← requireField Value.asStr (f "session_id")
    daemonPid := ← requireField asI32 (f "daemon_pid")
    daemonUptimeMs := ← requireField Value.asU64 (f "daemon_uptime_ms") }

def ErrPayload.decode (v : Value) : Option ErrPayload := do
  let f ← structFields ["code", "msg"] 2 v
  some ⟨← requireField Value.asStr (f "code"), ← requireField Value.asStr (f "msg")⟩

/-- What a flattened field collects: the entries no other field took. -/
def collect (taken : List String) (fields : List (String × Value)) : JsonValue :=
  ofContent (.object (fields.filter (fun p => p.1 ∉ taken)))

section Variants

variable (fields : List (String × Value))

def decodeHello : Option Frame := do
  some (.hello (← requireField Hello.decode (field "hello" fields)))

def decodeWelcome : Option Frame := do
  some (.welcome (← requireField Welcome.decode (field "welcome" fields)))

def decodeWelcomeErr : Option Frame := do
  some (.welcomeErr (← requireField (some ∘ ofContent) (field "welcome" fields))
    (← requireField ErrPayload.decode (field "err" fields)))

def decodeRequest : Option Frame := do
  some (.request (← requireField Value.asU64 (field "id" fields)) (← requireField Value.asStr (field "op" fields))
    (← defaultField (ofContent .null) (some ∘ ofContent) (field "args" fields)))

def decodeResponse : Option Frame := do
  some (.response (← requireField Value.asU64 (field "id" fields))
    (← requireField Value.asBool (field "ok" fields)) (collect ["id", "ok"] fields))

def decodeEvent : Option Frame := do
  some (.event (← requireField Value.asStr (field "event" fields)) (collect ["event"] fields))

end Variants

/-- `#[serde(untagged)]`: the first variant that decodes. -/
def Frame.decode : Value → Option Frame
  | .object fields =>
      decodeHello fields <|> decodeWelcome fields <|> decodeWelcomeErr fields <|>
        decodeRequest fields <|> decodeResponse fields <|> decodeEvent fields
  | _ => none

/-- The printer and the parser of `serde_json`. -/
structure SerdeJson where
  toVec : Value → List UInt8
  fromSlice : List UInt8 → Option Value
  fromSlice_nil : fromSlice [] = none

inductive DaemonError
  | unexpectedEof
  | json
  | frameTooLarge (size max : Nat)
  | other (msg : String)
  deriving DecidableEq, Repr

def writeU32 (n : Nat) : List UInt8 :=
  [UInt8.ofNat (n / 2 ^ 24), UInt8.ofNat (n / 2 ^ 16), UInt8.ofNat (n / 2 ^ 8), UInt8.ofNat n]

def readU32 (buf : List UInt8) : Nat := buf.foldl (fun n b => n * 2 ^ 8 + b.toNat) 0

def writeFrameSync (json : SerdeJson) (writer : List UInt8) (frame : Frame) :
    Except DaemonError (List UInt8) :=
  match frame.encode with
  | none => .error .json
  | some doc =>
      let body := json.toVec doc
      if body.length > maxFrameBytes then .error (.frameTooLarge body.length maxFrameBytes)
      else .ok (writer ++ writeU32 body.length ++ body)

def readExact (n : Nat) (reader : List UInt8) : Except DaemonError (List UInt8 × List UInt8) :=
  if n ≤ reader.length then .ok (reader.take n, reader.drop n) else .error .unexpectedEof

/-- The frame and what is left to read. -/
def readFrameSync (json : SerdeJson) (reader : List UInt8) :
    Except DaemonError (Frame × List UInt8) := do
  let (lenBuf, reader) ← readExact 4 reader
  let len := readU32 lenBuf
  if len = 0 then .error (.other "zero-length frame")
  else if len > maxFrameBytes then .error (.frameTooLarge len maxFrameBytes)
  else do
    let (buf, reader) ← readExact len reader
    match (json.fromSlice buf).bind Frame.decode with
    | none => .error .json
    | some frame => .ok (frame, reader)

def writeFrames (json : SerdeJson) (writer : List UInt8) (frames : List Frame) :
    Except DaemonError (List UInt8) :=
  frames.foldlM (writeFrameSync json) writer

/-- Reading gives these frames one after another, and then the end of the stream. -/
def Reads (json : SerdeJson) (reader : List UInt8) : List Frame → Prop
  | [] => readFrameSync json reader = .error .unexpectedEof
  | frame :: frames => ∃ rest, readFrameSync json reader = .ok (frame, rest) ∧ Reads json rest frames

end Zshrs.Daemon.Ipc
