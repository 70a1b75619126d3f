import Zshrs.Daemon.Schedule
import Mathlib.Algebra.Ring.Int.Defs
import Mathlib.Logic.Function.Basic

namespace Zshrs.Daemon.Artifact

open Json Lib.Runs
open Schedule (saturatingMul)

abbrev Bytes := List UInt8

/-- The crates under the store: the hash and its hex text, base64, and the text of a JSON value. -/
structure Crates where
  sha256Hex : Bytes → String
  base64Decode : String → Except String Bytes
  jsonText : Value → Bytes

/-- A row of `names.db`. -/
structure Row where
  name : String
  digestHex : String
  bytes : Int
  createdAt : Int
  updatedAt : Int
  lastGetAt : Option Int
  deriving DecidableEq

/-- `COALESCE(last_get_at, updated_at)`. -/
def Row.touched (r : Row) : Int := r.lastGetAt.getD r.updatedAt

/-- `ORDER BY 4 ASC`; rows of one time come in some order. -/
structure OrderBy where
  sort : List Row → List Row
  perm : ∀ rows, (sort rows).Perm rows
  sorted : ∀ rows, (sort rows).Pairwise fun a b => a.touched ≤ b.touched

def nameArg (args : Value) : Except ErrPayload String :=
  match ((args.get "name").bind Value.asStr).filter (· ≠ "") with
  | some name => .ok name
  | none => .error ⟨"bad_args", "missing `name`"⟩

def isHexDigit (c : Char) : Bool :=
  c.isDigit || ('a' ≤ c && c ≤ 'f') || ('A' ≤ c && c ≤ 'F')

def digestArg (args : Value) : Except ErrPayload String :=
  match ((args.get "digest").bind Value.asStr).filter
      (fun s => s.utf8ByteSize = 64 && s.toList.all isHexDigit) with
  | some digest => .ok digest
  | none => .error ⟨"bad_args", "missing or malformed `digest` (need 64-hex sha256)"⟩

def decodeValue (C : Crates) (args : Value) : Except ErrPayload Bytes :=
  match (args.get "value_base64").bind Value.asStr with
  | some b64 =>
      match C.base64Decode b64 with
      | .ok bytes => .ok bytes
      | .error e => .error ⟨"bad_args", "value_base64 decode: " ++ e⟩
  | none =>
      match args.get "value" with
      | some (.string s) => .ok s.toUTF8.toList
      | some other => .ok (C.jsonText other)
      | none => .error ⟨"bad_args", "missing `value` or `value_base64`"⟩

/-- A put whose arguments are good. -/
structure Put where
  name : String
  value : Bytes

def putArgs (C : Crates) (args : Value) : Except ErrPayload Put :=
  match nameArg args with
  | .error e => .error e
  | .ok name =>
      match decodeValue C args with
      | .error e => .error e
      | .ok value => .ok ⟨name, value⟩

structure Collected where
  removed : Nat
  freedBytes : Int
  deriving DecidableEq

inductive Answer
  | put (name digest : String) (bytes : Nat)
  | gc (collected : Collected)
  deriving DecidableEq

/-- What the operation of a client does next. -/
inductive Op
  | idle
  | exist (p : Put)
  | create (p : Put)
  | write (p : Put) (file sent : Nat)
  | rename (p : Put)
  | insert (p : Put)
  | scan (cutoff maxBytes : Option Int)
  | scanCap (cap : Int) (old : List Row)
  | delete (todo : List Row) (collected : Collected)
  | count (row : Row) (todo : List Row) (collected : Collected)
  | look (row : Row) (todo : List Row) (collected : Collected)
  | remove (row : Row) (todo : List Row) (collected : Collected)
  | done (answer : Except ErrPayload Answer)

/-- The rows, the blob files and the `.tmp` files beside them by digest, and the clients' operations. A
file is a number, so that one who has it open still writes it when its name is gone. -/
structure Store where
  rows : List Row
  files : Nat → Bytes
  fresh : Nat
  blobs : String → Option Nat
  temps : String → Option Nat
  ops : Nat → Op

def init : Store := ⟨[], fun _ => [], 0, fun _ => none, fun _ => none, fun _ => .idle⟩

def Store.turn (s : Store) (k : Nat) (op : Op) : Store := { s with ops := Function.update s.ops k op }

/-- The arithmetic of an `i64`. -/
def wrapping (n : Int) : Int := n.bmod (2 ^ 64)

section Put

variable (C : Crates)

def Put.digest (p : Put) : String := C.sha256Hex p.value

/-- Opening the `.tmp` file cuts the one that is there. -/
def createTmp (s : Store) (k : Nat) (p : Put) : Store :=
  match s.temps (p.digest C) with
  | some file => { s with files := Function.update s.files file [] }.turn k (.write p file 0)
  | none =>
      { s with
        files := Function.update s.files s.fresh []
        fresh := s.fresh + 1
        temps := Function.update s.temps (p.digest C) (some s.fresh) }.turn k (.write p s.fresh 0)

/-- A write at an offset, which may be behind the end. -/
def overwrite (file : Bytes) (offset : Nat) (bytes : Bytes) : Bytes :=
  file.take offset ++ List.replicate (offset - file.length) 0 ++ bytes ++ file.drop (offset + bytes.length)

/-- One call of `write`, which takes as many bytes as it likes, but one. -/
def writeTmp (s : Store) (k : Nat) (p : Put) (file sent chunk : Nat) : Store :=
  if sent < p.value.length then
    let bytes := (p.value.drop sent).take (chunk + 1)
    { s with files := Function.update s.files file (overwrite (s.files file) sent bytes) }.turn k
      (.write p file (sent + bytes.length))
  else s.turn k (.rename p)

def renameTmp (s : Store) (k : Nat) (p : Put) : Store :=
  match s.temps (p.digest C) with
  | none => s.turn k (.done (.error ⟨"artifact_rename", "No such file or directory (os error 2)"⟩))
  | some file =>
      { s with
        blobs := Function.update s.blobs (p.digest C) (some file)
        temps := Function.update s.temps (p.digest C) none }.turn k (.insert p)

/-- The `INSERT … ON CONFLICT(name) DO UPDATE`. -/
def insertRow (rows : List Row) (name digestHex : String) (bytes now : Int) : List Row :=
  if rows.any (·.name = name) then
    rows.map fun r => if r.name = name then { r with digestHex, bytes, updatedAt := now } else r
  else rows ++ [⟨name, digestHex, bytes, now, now, none⟩]

def insertPut (s : Store) (k : Nat) (p : Put) (now : Int) : Store :=
  { s with rows := insertRow s.rows p.name (p.digest C) (wrapping p.value.length) now }.turn k
    (.done (.ok (.put p.name (p.digest C) p.value.length)))

end Put

section Get

/-- What a fetch answers: the digest, the name it was asked by, and the bytes. -/
structure Fetched where
  digest : String
  name : Option String
  value : Bytes
  deriving DecidableEq

def notFound (name : String) : ErrPayload := ⟨"no_such_file", "artifact `" ++ name ++ "` not found"⟩

def missing (digest : String) : ErrPayload :=
  ⟨"no_such_file", "blob " ++ digest ++ " missing on disk (did artifact_gc reap it?)"⟩

def fetchBlob (s : Store) (digest : String) (name : Option String) : Except ErrPayload Fetched :=
  match s.blobs digest with
  | none => .error (missing digest)
  | some file => .ok ⟨digest, name, s.files file⟩

/-- The `SELECT` of a get. -/
def lookup (s : Store) (name : String) : Except ErrPayload String :=
  match s.rows.find? (·.name = name) with
  | none => .error (notFound name)
  | some row => .ok row.digestHex

/-- Its `UPDATE`. -/
def touch (rows : List Row) (name : String) (now : Int) : List Row :=
  rows.map fun r => if r.name = name then { r with lastGetAt := some now } else r

/-- A get: the store its `SELECT` sees, and the one in which it reads the blob. -/
def opArtifactGet (s s' : Store) (args : Value) : Except ErrPayload Fetched :=
  match nameArg args with
  | .error e => .error e
  | .ok name =>
      match lookup s name with
      | .error e => .error e
      | .ok digest => fetchBlob s' digest (some name)

def opArtifactGetByDigest (s : Store) (args : Value) : Except ErrPayload Fetched :=
  match digestArg args with
  | .error e => .error e
  | .ok digest => fetchBlob s digest none

end Get

section Collection

variable (O : OrderBy)

def cutoffOf (maxAgeSecs : Option Int) (now : Int) : Option Int :=
  maxAgeSecs.map fun secs => wrapping (now - saturatingMul secs 1000000000)

/-- The rows that no operation has touched since the cutoff. -/
def aged (rows : List Row) (cutoff : Option Int) : List Row :=
  match cutoff with
  | some cut => rows.filter fun r => r.touched < cut
  | none => []

def total (rows : List Row) : Int := rows.foldl (fun n r => wrapping (n + r.bytes)) 0

/-- The loop of the cap: the rows from the oldest on, until the rest is not over it. -/
def capLoop : Int → List Row → List Row → List Row
  | _, [], acc => acc
  | overBy, r :: rest, acc =>
      if overBy > 0 then
        capLoop (wrapping (overBy - r.bytes)) rest (if acc.any (·.name = r.name) then acc else acc ++ [r])
      else acc

def capped (rows : List Row) (cap : Int) (old : List Row) : List Row :=
  capLoop (wrapping (total rows - cap)) (O.sort rows) old

/-- The candidates of a collection that nothing runs beside. -/
def toRemove (rows : List Row) (cutoff maxBytes : Option Int) : List Row :=
  match maxBytes with
  | some cap => capped O rows cap (aged rows cutoff)
  | none => aged rows cutoff

def Collected.one (c : Collected) : Collected := { c with removed := c.removed + 1 }

def Collected.freed (c : Collected) (bytes : Int) : Collected :=
  ⟨c.removed + 1, wrapping (c.freedBytes + bytes)⟩

/-- The loop over the candidates. -/
def collect {α : Type} : List Row → (String → Option α) → List Row → Collected →
    List Row × (String → Option α) × Collected
  | rows, blobs, [], collected => (rows, blobs, collected)
  | rows, blobs, r :: todo, collected =>
      let rows := rows.filter (·.name ≠ r.name)
      if rows.any (·.digestHex = r.digestHex) then collect rows blobs todo collected.one
      else if (blobs r.digestHex).isSome then
        collect rows (Function.update blobs r.digestHex none) todo (collected.freed r.bytes)
      else collect rows blobs todo collected.one

def opArtifactGc (s : Store) (args : Value) (now : Int) : Store × Collected :=
  let cutoff := cutoffOf ((args.get "max_age_secs").bind Value.asI64) now
  let candidates := toRemove O s.rows cutoff ((args.get "max_bytes").bind Value.asI64)
  let (rows, blobs, collected) := collect s.rows s.blobs candidates ⟨0, 0⟩
  ({ s with rows, blobs }, collected)

end Collection

inductive Request
  | put (args : Value)
  | gc (args : Value)

/-- The steps of the clients interleave. A call of the file system or the data base may fail. -/
inductive Event
  | request (k : Nat) (r : Request) (now : Int)
  | step (k : Nat) (now : Int) (chunk : Nat)
  | touch (name : String) (now : Int)
  | fail (k : Nat) (e : ErrPayload)

section Steps

variable (C : Crates) (O : OrderBy)

def Op.underWay : Op → Bool
  | .idle => false
  | .done _ => false
  | _ => true

def request (s : Store) (k : Nat) (now : Int) : Request → Store
  | .put args =>
      match putArgs C args with
      | .error e => s.turn k (.done (.error e))
      | .ok p => s.turn k (.exist p)
  | .gc args =>
      s.turn k (.scan (cutoffOf ((args.get "max_age_secs").bind Value.asI64) now)
        ((args.get "max_bytes").bind Value.asI64))

def advance (s : Store) (k : Nat) (now : Int) (chunk : Nat) : Store :=
  match s.ops k with
  | .idle => s
  | .exist p => s.turn k (if (s.blobs (p.digest C)).isSome then .insert p else .create p)
  | .create p => createTmp C s k p
  | .write p file sent => writeTmp s k p file sent chunk
  | .rename p => renameTmp C s k p
  | .insert p => insertPut C s k p now
  | .scan cutoff none => s.turn k (.delete (aged s.rows cutoff) ⟨0, 0⟩)
  | .scan cutoff (some cap) => s.turn k (.scanCap cap (aged s.rows cutoff))
  | .scanCap cap old => s.turn k (.delete (capped O s.rows cap old) ⟨0, 0⟩)
  | .delete [] collected => s.turn k (.done (.ok (.gc collected)))
  | .delete (r :: todo) collected =>
      { s with rows := s.rows.filter (·.name ≠ r.name) }.turn k (.count r todo collected)
  | .count r todo collected =>
      s.turn k (if s.rows.any (·.digestHex = r.digestHex) then .delete todo collected.one
        else .look r todo collected)
  | .look r todo collected =>
      s.turn k (if (s.blobs r.digestHex).isSome then .remove r todo collected
        else .delete todo collected.one)
  | .remove r todo collected =>
      { s with blobs := Function.update s.blobs r.digestHex none }.turn k
        (.delete todo (collected.freed r.bytes))
  | .done _ => s

/-- The calls whose errors end the operation. -/
def Op.fails : Op → Bool
  | .create _ => true
  | .write _ _ _ => true
  | .rename _ => true
  | .insert _ => true
  | .scan _ _ => true
  | .scanCap _ _ => true
  | _ => false

def step (s : Store) : Event → Store
  | .request k r now => if (s.ops k).underWay then s else request C s k now r
  | .step k now chunk => advance C O s k now chunk
  | .touch name now => { s with rows := touch s.rows name now }
  | .fail k e => if (s.ops k).fails then s.turn k (.done (.error e)) else s

/-- The put of an operation under way. -/
def Op.putting : Op → Option Put
  | .exist p => some p
  | .create p => some p
  | .write p _ _ => some p
  | .rename p => some p
  | .insert p => some p
  | _ => none

/-- The digest that an operation has counted no row of, and whose blob it will remove. -/
def Op.removing : Op → Option String
  | .look r _ _ => some r.digestHex
  | .remove r _ _ => some r.digestHex
  | _ => none

/-- A put begins only while no other put of its digest is under way and no collection removes that
digest's blob, and a collection counts the rows of a digest only while no put of it is under way. -/
def Apart (s : Store) : Event → Prop
  | .request _ (.put args) _ => ∀ p, putArgs C args = .ok p → ∀ j,
      (∀ q, (s.ops j).putting = some q → q.digest C ≠ p.digest C) ∧
        (s.ops j).removing ≠ some (p.digest C)
  | .step k _ _ =>
      match s.ops k with
      | .count r _ _ => ∀ j q, (s.ops j).putting = some q → q.digest C ≠ r.digestHex
      | _ => True
  | _ => True

/-- What the store is for: a map from names to values. -/
abbrev Held := String → Option Bytes

/-- A put binds its name when its row is there, and a collection unbinds a name when it deletes the row. -/
def effect (s : Store) (m : Held) : Event → Held
  | .step k _ _ =>
      match s.ops k with
      | .insert p => Function.update m p.name (some p.value)
      | .delete (r :: _) _ => Function.update m r.name none
      | _ => m
  | _ => m

def heldFrom (s : Store) (m : Held) (es : List Event) : Store × Held :=
  run (fun sm e => (step C O sm.1 e, effect sm.1 sm.2 e)) (s, m) es

def held (es : List Event) : Held := (heldFrom C O init (fun _ => none) es).2

def putValues (es : List Event) : List Bytes :=
  es.filterMap fun
    | .request _ (.put args) _ => (putArgs C args).toOption.map Put.value
    | _ => none

end Steps

end Zshrs.Daemon.Artifact
