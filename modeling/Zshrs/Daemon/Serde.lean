import Zshrs.Lib.SortedMap
import Mathlib.Data.String.Basic
import Mathlib.Algebra.Group.Int.Defs
import Mathlib.Data.List.Basic
import Mathlib.Data.Int.Notation
import Mathlib.Algebra.Group.Nat.Defs

namespace Zshrs.Daemon.Json

/-- The three representations `serde_json` keeps a number in. -/
inductive Number
  | posInt (n : UInt64)
  | negInt (n : Int64)
  | float (bits : UInt64)
  deriving DecidableEq, Repr

inductive Value
  | null
  | bool (b : Bool)
  | number (n : Number)
  | string (s : String)
  | array (xs : List Value)
  | object (fields : List (String × Value))
  deriving Repr

namespace Number

def asU64 : Number → Option UInt64
  | .posInt n => some n
  | _ => none

def asI64 : Number → Option Int
  | .posInt n => if n.toNat < 2 ^ 63 then some n.toNat else none
  | .negInt n => some n.toInt
  | .float _ => none

/-- An integer as the printer writes it and the parser reads it back. -/
def ofInt (i : Int) : Number :=
  if 0 ≤ i then .posInt (UInt64.ofNat i.toNat) else .negInt (Int64.ofInt i)

/-- `as_f64() > 0.0`, read off the IEEE bits. -/
def positive : Number → Bool
  | .posInt n => n != 0
  | .negInt _ => false
  | .float bits => bits != 0 && bits ≤ 0x7FF0000000000000

end Number

namespace Value

def get (key : String) : Value → Option Value
  | .object fields => (fields.find? (fun p => p.1 == key)).map Prod.snd
  | _ => none

def asStr : Value → Option String
  | .string s => some s
  | _ => none

def asBool : Value → Option Bool
  | .bool b => some b
  | _ => none

def asU64 : Value → Option UInt64
  | .number n => n.asU64
  | _ => none

def asI64 : Value → Option Int
  | .number n => n.asI64
  | _ => none

def asArray : Value → Option (List Value)
  | .array xs => some xs
  | _ => none

end Value

structure ErrPayload where
  code : String
  msg : String
  deriving DecidableEq, Repr

end Zshrs.Daemon.Json

namespace Zshrs.Daemon.Serde

open Json Lib

/-- A `serde_json::Value`: its objects are `BTreeMap`s. A bare `Value` is a parsed document,
whose objects keep every entry in the order of the text. -/
inductive Canonical : Value → Prop
  | null : Canonical .null
  | bool (b : Bool) : Canonical (.bool b)
  | number (n : Number) : Canonical (.number n)
  | string (s : String) : Canonical (.string s)
  | array {xs : List Value} : (∀ x ∈ xs, Canonical x) → Canonical (.array xs)
  | object {fields : List (String × Value)} : SortedMap.Sorted fields →
      (∀ p ∈ fields, Canonical p.2) → Canonical (.object fields)

abbrev JsonValue := {v : Value // Canonical v}

mutual

def norm : Value → Value
  | .array xs => .array (normList xs)
  | .object fields => .object (normFields [] fields)
  | .null => .null
  | .bool b => .bool b
  | .number n => .number n
  | .string s => .string s

def normList : List Value → List Value
  | [] => []
  | x :: xs => norm x :: normList xs

/-- The entries are inserted in order, so the last one of a key stands. -/
def normFields (acc : List (String × Value)) : List (String × Value) → List (String × Value)
  | [] => acc
  | (k, v) :: rest => normFields (SortedMap.insert k (norm v) acc) rest

end

mutual

theorem canonical_norm : ∀ v : Value, Canonical (norm v)
  | .array xs => .array (canonical_normList xs)
  | .object fields => by
      have h := canonical_normFields fields [] List.Pairwise.nil (by simp)
      exact .object h.1 h.2
  | .null => .null
  | .bool b => .bool b
  | .number n => .number n
  | .string s => .string s

theorem canonical_normList : ∀ (xs : List Value), ∀ x ∈ normList xs, Canonical x
  | [] => by simp [normList]
  | x :: xs => by
      intro y hy
      rcases List.mem_cons.mp hy with rfl | hy
      · exact canonical_norm x
      · exact canonical_normList xs y hy

theorem canonical_normFields : ∀ (fields acc : List (String × Value)), SortedMap.Sorted acc →
    (∀ p ∈ acc, Canonical p.2) →
    SortedMap.Sorted (normFields acc fields) ∧ ∀ p ∈ normFields acc fields, Canonical p.2
  | [], acc => fun hs hc => ⟨hs, hc⟩
  | (k, v) :: rest, acc => by
      intro hs hc
      refine canonical_normFields rest _ (hs.insert k (norm v)) ?_
      intro p hp
      rcases SortedMap.mem_insert hp with rfl | hp
      · exact canonical_norm v
      · exact hc p hp

end

theorem normList_eq {xs : List Value} (h : ∀ x ∈ xs, norm x = x) : normList xs = xs := by
  induction xs with
  | nil => rfl
  | cons x xs ih =>
      rw [normList, h x List.mem_cons_self, ih (fun y hy => h y (List.mem_cons_of_mem _ hy))]

theorem normFields_eq {fields acc : List (String × Value)} (hs : SortedMap.Sorted (acc ++ fields))
    (h : ∀ p ∈ fields, norm p.2 = p.2) : normFields acc fields = acc ++ fields := by
  induction fields generalizing acc with
  | nil => simp [normFields]
  | cons p rest ih =>
      obtain ⟨k, v⟩ := p
      rw [normFields, h (k, v) List.mem_cons_self, SortedMap.insert_last hs.lt_of_append]
      rw [ih (by simpa using hs) (fun q hq => h q (List.mem_cons_of_mem _ hq))]
      simp

theorem Canonical.norm_eq {v : Value} (h : Canonical v) : norm v = v := by
  induction h with
  | array _ ih => rw [norm, normList_eq ih]
  | object hs _ ih => rw [norm, @normFields_eq _ [] hs ih, List.nil_append]
  | null | bool | number | string => rfl

/-- `Value::deserialize`. -/
def ofContent (v : Value) : JsonValue := ⟨norm v, canonical_norm v⟩

@[simp] theorem ofContent_val (v : JsonValue) : ofContent v.val = v :=
  Subtype.ext v.property.norm_eq

/-- What a map visitor finds for one of its fields. -/
inductive Field
  | missing
  | once (v : Value)
  | twice

def field (key : String) (fields : List (String × Value)) : Field :=
  match fields.filter (fun p => p.1 = key) with
  | [] => .missing
  | [p] => .once p.2
  | _ => .twice

def seqField (names : List String) (vs : List Value) (key : String) : Field :=
  match (names.zip vs).find? (fun p => p.1 = key) with
  | none => .missing
  | some p => .once p.2

/-- The fields of a struct, from a map or from a sequence that may leave out the defaulted tail. -/
def structFields (names : List String) (least : Nat) : Value → Option (String → Field)
  | .object fields => some (fun key => field key fields)
  | .array vs =>
      if least ≤ vs.length ∧ vs.length ≤ names.length then some (seqField names vs) else none
  | _ => none

def requireField {α : Type} (decode : Value → Option α) : Field → Option α
  | .once v => decode v
  | _ => none

def defaultField {α : Type} (d : α) (decode : Value → Option α) : Field → Option α
  | .missing => some d
  | .once v => decode v
  | .twice => none

def optionField {α : Type} (decode : Value → Option α) : Field → Option (Option α)
  | .missing => some none
  | .once .null => some none
  | .once v => (decode v).map some
  | .twice => none

@[simp] theorem requireField_once {α : Type} (decode : Value → Option α) (v : Value) :
    requireField decode (.once v) = decode v := rfl

@[simp] theorem requireField_missing {α : Type} (decode : Value → Option α) :
    requireField decode .missing = none := rfl

@[simp] theorem requireField_twice {α : Type} (decode : Value → Option α) :
    requireField decode .twice = none := rfl

@[simp] theorem defaultField_once {α : Type} (d : α) (decode : Value → Option α) (v : Value) :
    defaultField d decode (.once v) = decode v := rfl

@[simp] theorem optionField_missing {α : Type} (decode : Value → Option α) :
    optionField decode .missing = some none := rfl

def asU32 (v : Value) : Option UInt32 :=
  v.asU64.bind (fun n => if n.toNat < 2 ^ 32 then some n.toUInt32 else none)

def asI32 : Value → Option Int32
  | .number (.posInt n) => if n.toNat < 2 ^ 31 then some (Int32.ofNat n.toNat) else none
  | .number (.negInt n) => if -2 ^ 31 ≤ n.toInt then some n.toInt32 else none
  | _ => none

def ofU32 (n : UInt32) : Value := .number (.posInt n.toUInt64)
def ofU64 (n : UInt64) : Value := .number (.posInt n)
def ofI32 (n : Int32) : Value := .number (.ofInt n.toInt)

def ofOption {α : Type} (encode : α → Value) : Option α → Value
  | none => .null
  | some a => encode a

@[simp] theorem asU64_ofU64 (n : UInt64) : (ofU64 n).asU64 = some n := rfl

@[simp] theorem asU32_ofU32 (n : UInt32) : asU32 (ofU32 n) = some n := by
  have hn := n.toNat_lt
  simp only [asU32, ofU32, Value.asU64, Number.asU64, Option.bind_some, UInt32.toNat_toUInt64, if_pos hn,
    UInt32.toUInt32_toUInt64]

@[simp] theorem asI32_ofI32 (n : Int32) : asI32 (ofI32 n) = some n := by
  have hlo := n.le_toInt
  have hhi := n.toInt_lt
  simp only [ofI32, Number.ofInt]
  split
  · rename_i hpos
    obtain ⟨m, hm⟩ := Int.eq_ofNat_of_zero_le hpos
    have hm64 : m < 2 ^ 64 := by omega
    have hm31 : m < 2 ^ 31 := by omega
    simp only [asI32, hm, Int.toNat_natCast]
    rw [UInt64.toNat_ofNat_of_lt' hm64, if_pos hm31, ← Int32.ofInt_eq_ofNat, ← hm, Int32.ofInt_toInt]
  · have h64 : (Int64.ofInt n.toInt).toInt = n.toInt :=
      Int64.toInt_ofInt_of_le (by omega) (by omega)
    simp only [asI32, h64, if_pos hlo]
    apply congrArg
    apply Int32.toInt_inj.mp
    rw [Int64.toInt_toInt32, h64]
    exact Int32.toInt_bmod n

theorem optionField_ofOption {α : Type} {decode : Value → Option α} {encode : α → Value}
    (hnull : ∀ a, encode a ≠ .null) (h : ∀ a, decode (encode a) = some a) (a : Option α) :
    optionField decode (.once (ofOption encode a)) = some a := by
  cases a with
  | none => rfl
  | some a =>
      rw [ofOption]
      cases he : encode a with
      | null => exact absurd he (hnull a)
      | _ => simp [optionField, ← he, h]

def Field.ofOption : Option Value → Field
  | none => .missing
  | some v => .once v

theorem field_of_sorted {fields : List (String × Value)} (h : SortedMap.Sorted fields)
    (key : String) : field key fields = .ofOption ((Value.object fields).get key) := by
  simp only [field, Value.get]
  cases hf : fields.find? (fun p => p.1 == key) with
  | none =>
      have hnone : fields.filter (fun p => p.1 = key) = [] := by
        apply List.filter_eq_nil_iff.mpr
        intro p hp
        simpa using List.find?_eq_none.mp hf p hp
      simp [hnone, Field.ofOption]
  | some p =>
      have hkey : p.1 = key := by simpa using List.find?_some hf
      subst hkey
      rw [h.filter_key (List.mem_of_find?_eq_some hf)]
      rfl

theorem field_cons_of_ne {key : String} {p : String × Value} (h : p.1 ≠ key)
    (fields : List (String × Value)) : field key (p :: fields) = field key fields := by
  simp [field, h]

theorem field_cons_self {key : String} {fields : List (String × Value)} {o : Option Value}
    (h : field key fields = .ofOption o) (v : Value) :
    field key ((key, v) :: fields) = if o.isSome then .twice else .once v := by
  simp only [field, List.filter_cons_of_pos, decide_true] at h ⊢
  cases hf : fields.filter (fun p => p.1 = key) with
  | nil =>
      cases o with
      | none => rfl
      | some w => simp [hf, Field.ofOption] at h
  | cons q rest =>
      cases o with
      | none => cases rest <;> simp [hf, Field.ofOption] at h
      | some w => rfl

@[simp] theorem requireField_ofOption {α : Type} (decode : Value → Option α) (v : Option Value) :
    requireField decode (.ofOption v) = v.bind decode := by
  cases v <;> rfl

end Zshrs.Daemon.Serde
