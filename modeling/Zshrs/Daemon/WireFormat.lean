import Zshrs.Daemon.Ipc

namespace Zshrs.Daemon.Ipc

open Json Serde Lib

@[simp] theorem asStr_string (s : String) : (Value.string s).asStr = some s := rfl

theorem Hello.decode_encode (h : Hello) : Hello.decode h.encode = some h := by
  obtain ⟨version, clientPid, tty, cwd, argv0, shellPid, shellStart⟩ := h
  have hstr := fun a => @optionField_ofOption _ Value.asStr .string (by simp) (fun _ => rfl) a
  have hpid := fun n => @optionField_ofOption _ asI32 ofI32 (by simp [ofI32]) asI32_ofI32 (some n)
  have hstart := fun n => @optionField_ofOption _ Value.asU64 ofU64 (by simp [ofU64]) asU64_ofU64 (some n)
  simp only [ofOption] at hpid hstart
  cases shellPid <;> cases shellStart <;>
    simp [Hello.decode, Hello.encode, structFields, field, skipNone, hstr, hpid, hstart]

theorem Welcome.decode_encode (w : Welcome) : Welcome.decode w.encode = some w := by
  simp [Welcome.decode, Welcome.encode, structFields, field]

theorem ErrPayload.decode_encode (err : ErrPayload) :
    ErrPayload.decode (errPayload err) = some err := by
  simp [ErrPayload.decode, errPayload, structFields, field]

/-- Entries that decode as one of the handshake frames. -/
def handshake (payload : Value) : Bool :=
  ((payload.get "hello").bind Hello.decode).isSome ||
    ((payload.get "welcome").bind Welcome.decode).isSome ||
    ((payload.get "welcome").isSome && ((payload.get "err").bind ErrPayload.decode).isSome)

def Frame.unambiguous : Frame → Bool
  | .hello _ => true
  | .welcome _ => true
  | .welcomeErr w _ => (Welcome.decode w.val).isNone
  | .request _ _ _ => true
  | .response _ _ payload =>
      !handshake payload.val && ((payload.val.get "op").bind Value.asStr).isNone &&
        (payload.val.get "id").isNone && (payload.val.get "ok").isNone
  | .event _ payload =>
      !handshake payload.val && (payload.val.get "event").isNone &&
        !(((payload.val.get "id").bind Value.asU64).isSome &&
          (((payload.val.get "op").bind Value.asStr).isSome ||
            ((payload.val.get "ok").bind Value.asBool).isSome))

def Frame.objectPayload : Frame → Prop
  | .response _ _ payload => ∃ fields, payload.val = .object fields
  | .event _ payload => ∃ fields, payload.val = .object fields
  | _ => True

def isHandshake : Frame → Bool
  | .hello _ | .welcome _ | .welcomeErr _ _ => true
  | _ => false

section Payload

variable {doc fields : List (String × Value)}

/-- The entries a frame puts before its payload hide none of these keys. -/
def Shows (doc fields : List (String × Value)) (keys : List String) : Prop :=
  ∀ key ∈ keys, field key doc = .ofOption ((Value.object fields).get key)

theorem shows_cons {p : String × Value} {keys : List String} (h : Shows doc fields keys)
    (hp : p.1 ∉ keys) : Shows (p :: doc) fields keys := by
  intro key hkey
  rw [field_cons_of_ne (fun heq => hp (heq ▸ hkey))]
  exact h key hkey

theorem shows_sorted (h : SortedMap.Sorted fields) (keys : List String) :
    Shows fields fields keys :=
  fun key _ => field_of_sorted h key

theorem decode_handshake (h : Shows doc fields ["hello", "welcome", "err"])
    (hs : handshake (.object fields) = true) :
    ∃ frame, Frame.decode (.object doc) = some frame ∧ isHandshake frame = true := by
  have hhello := h "hello" (by simp)
  have hwelcome := h "welcome" (by simp)
  have herr := h "err" (by simp)
  simp only [handshake, Bool.or_eq_true, Bool.and_eq_true] at hs
  simp only [Frame.decode, decodeHello, decodeWelcome, decodeWelcomeErr, hhello, hwelcome, herr,
    requireField_ofOption]
  cases h1 : ((Value.object fields).get "hello").bind Hello.decode with
  | some hello => exact ⟨.hello hello, by simp, rfl⟩
  | none =>
      cases h2 : ((Value.object fields).get "welcome").bind Welcome.decode with
      | some welcome => exact ⟨.welcome welcome, by simp, rfl⟩
      | none =>
          obtain ⟨hw, he⟩ : _ ∧ _ := by simpa [h1, h2] using hs
          obtain ⟨w, hw⟩ := Option.isSome_iff_exists.mp hw
          obtain ⟨err, he⟩ := Option.isSome_iff_exists.mp he
          exact ⟨.welcomeErr (ofContent w) err, by simp [hw, he], rfl⟩

theorem decode_not_handshake (h : Shows doc fields ["hello", "welcome", "err"])
    (hs : handshake (.object fields) = false) :
    Frame.decode (.object doc) = (decodeRequest doc <|> decodeResponse doc <|> decodeEvent doc) := by
  have hhello := h "hello" (by simp)
  have hwelcome := h "welcome" (by simp)
  have herr := h "err" (by simp)
  simp only [handshake, Bool.or_eq_false_iff, Bool.and_eq_false_iff, Option.isSome_eq_false_iff,
    Option.isNone_iff_eq_none] at hs
  obtain ⟨⟨h1, h2⟩, h3⟩ := hs
  have hnone : decodeWelcomeErr doc = none := by
    simp only [decodeWelcomeErr, hwelcome, herr, requireField_ofOption]
    rcases h3 with h3 | h3 <;> simp [h3]
  simp [Frame.decode, hnone, decodeHello, decodeWelcome, hhello, hwelcome, h1, h2]

/-- `collect` gives back the payload when its keys are not those of the other fields. -/
theorem collect_payload {taken : List String} {own : List (String × Value)}
    (hown : ∀ p ∈ own, p.1 ∈ taken) (hfields : ∀ p ∈ fields, p.1 ∉ taken)
    (hc : Canonical (.object fields)) :
    collect taken (own ++ fields) = ⟨.object fields, hc⟩ := by
  have hfilter : (own ++ fields).filter (fun p => p.1 ∉ taken) = fields := by
    rw [List.filter_append, List.filter_eq_nil_iff.mpr, List.nil_append, List.filter_eq_self.mpr]
    · simpa using hfields
    · simpa using hown
  rw [collect, hfilter]
  exact ofContent_val ⟨.object fields, hc⟩

theorem notMem_of_get_none {key : String} (h : (Value.object fields).get key = none) :
    ∀ p ∈ fields, p.1 ≠ key := by
  intro p hp
  have hfind : fields.find? (fun q => q.1 == key) = none := by simpa [Value.get] using h
  simpa using List.find?_eq_none.mp hfind p hp

theorem decodeEvent_ne_response (doc : List (String × Value)) (id : UInt64) (ok : Bool)
    (payload : JsonValue) : decodeEvent doc ≠ some (.response id ok payload) := by
  simp [decodeEvent, Option.bind_eq_some_iff]

theorem Canonical.sorted (hc : Canonical (.object fields)) : SortedMap.Sorted fields := by
  cases hc
  assumption

theorem decodeRequest_of_op (hop : ((Value.object fields).get "op").bind Value.asStr ≠ none)
    (hshows : Shows doc fields ["op", "args"]) (id : UInt64)
    (hid : requireField Value.asU64 (field "id" doc) = some id) :
    ∃ op args, decodeRequest doc = some (.request id op args) := by
  obtain ⟨op, hop⟩ := Option.ne_none_iff_exists'.mp hop
  have hargs : ∃ args, defaultField (ofContent .null) (some ∘ ofContent) (field "args" doc) = some args := by
    rw [hshows "args" (by simp)]
    cases (Value.object fields).get "args" with
    | none => exact ⟨ofContent .null, rfl⟩
    | some v => exact ⟨ofContent v, rfl⟩
  obtain ⟨args, hargs⟩ := hargs
  refine ⟨op, args, ?_⟩
  simp [decodeRequest, hid, hshows "op" (by simp), hop, hargs]

theorem decodeRequest_of_not_op (hop : ((Value.object fields).get "op").bind Value.asStr = none)
    (hshows : Shows doc fields ["op", "args"]) : decodeRequest doc = none := by
  simp [decodeRequest, hshows "op" (by simp), hop]

theorem decode_response_iff (hc : Canonical (.object fields)) (id : UInt64) (ok : Bool) :
    Frame.decode (.object (("id", ofU64 id) :: ("ok", .bool ok) :: fields)) =
        some (.response id ok ⟨.object fields, hc⟩) ↔
      (Frame.response id ok ⟨.object fields, hc⟩).unambiguous = true := by
  have hsorted := Canonical.sorted hc
  have hshows : ∀ keys, "id" ∉ keys → "ok" ∉ keys →
      Shows (("id", ofU64 id) :: ("ok", .bool ok) :: fields) fields keys :=
    fun keys hid hok => shows_cons (shows_cons (shows_sorted hsorted keys) hok) hid
  have hid : field "id" (("id", ofU64 id) :: ("ok", .bool ok) :: fields) =
      if ((Value.object fields).get "id").isSome then .twice else .once (ofU64 id) := by
    apply field_cons_self
    rw [field_cons_of_ne (by simp), field_of_sorted hsorted]
  have hok : field "ok" (("id", ofU64 id) :: ("ok", .bool ok) :: fields) =
      if ((Value.object fields).get "ok").isSome then .twice else .once (.bool ok) := by
    rw [field_cons_of_ne (by simp)]
    exact field_cons_self (field_of_sorted hsorted "ok") (.bool ok)
  generalize hdoc : ("id", ofU64 id) :: ("ok", Value.bool ok) :: fields = doc at *
  simp only [Frame.unambiguous]
  cases hs : handshake (.object fields) with
  | true =>
      obtain ⟨frame, hframe, hkind⟩ := decode_handshake (hshows _ (by simp) (by simp)) hs
      rw [hframe]
      cases frame <;> simp [isHandshake] at hkind ⊢
  | false =>
      rw [decode_not_handshake (hshows _ (by simp) (by simp)) hs]
      cases hgid : (Value.object fields).get "id" with
      | some v =>
          have hreq : decodeRequest doc = none := by simp [decodeRequest, hid, hgid]
          have hres : decodeResponse doc = none := by simp [decodeResponse, hid, hgid]
          simpa [hreq, hres] using decodeEvent_ne_response doc id ok _
      | none =>
          have hid : requireField Value.asU64 (field "id" doc) = some id := by simp [hid, hgid]
          by_cases hop : ((Value.object fields).get "op").bind Value.asStr = none
          · have hreq := decodeRequest_of_not_op hop (hshows _ (by simp) (by simp))
            cases hgok : (Value.object fields).get "ok" with
            | some v =>
                have hres : decodeResponse doc = none := by simp [decodeResponse, hok, hgok]
                simpa [hreq, hres] using decodeEvent_ne_response doc id ok _
            | none =>
                have hcollect := @collect_payload _ ["id", "ok"]
                  [("id", ofU64 id), ("ok", Value.bool ok)] (by simp)
                  (fun p hp => by simp [notMem_of_get_none hgid p hp, notMem_of_get_none hgok p hp]) hc
                have hres : decodeResponse doc = some (.response id ok ⟨.object fields, hc⟩) := by
                  simp only [List.cons_append, List.nil_append, hdoc] at hcollect
                  simp [decodeResponse, hid, hok, hgok, hcollect, Value.asBool]
                simp [hreq, hres, hop]
          · obtain ⟨op, args, hreq⟩ := decodeRequest_of_op hop (hshows _ (by simp) (by simp)) id hid
            simp [hreq, hop]

theorem decode_event_iff (hc : Canonical (.object fields)) (name : String) :
    Frame.decode (.object (("event", .string name) :: fields)) =
        some (.event name ⟨.object fields, hc⟩) ↔
      (Frame.event name ⟨.object fields, hc⟩).unambiguous = true := by
  have hsorted := Canonical.sorted hc
  have hshows : ∀ keys, "event" ∉ keys → Shows (("event", .string name) :: fields) fields keys :=
    fun keys hevent => shows_cons (shows_sorted hsorted keys) hevent
  have hevent := field_cons_self (field_of_sorted hsorted "event") (.string name)
  have hcollect := @collect_payload fields ["event"] [("event", .string name)] (by simp)
  generalize hdoc : ("event", Value.string name) :: fields = doc at *
  simp only [List.cons_append, List.nil_append, hdoc] at hcollect
  have hid := hshows ["id"] (by simp) "id" (by simp)
  have hok := hshows ["ok"] (by simp) "ok" (by simp)
  simp only [Frame.unambiguous]
  cases hs : handshake (.object fields) with
  | true =>
      obtain ⟨frame, hframe, hkind⟩ := decode_handshake (hshows _ (by simp)) hs
      rw [hframe]
      cases frame <;> simp [isHandshake] at hkind ⊢
  | false =>
      rw [decode_not_handshake (hshows _ (by simp)) hs]
      have hev : decodeEvent doc = some (.event name ⟨.object fields, hc⟩) ↔
          ((Value.object fields).get "event").isNone = true := by
        cases hg : (Value.object fields).get "event" with
        | some v => simp [decodeEvent, hevent, hg]
        | none =>
            have hpayload := hcollect (fun p hp => by simp [notMem_of_get_none hg p hp]) hc
            simp [decodeEvent, hevent, hg, hpayload]
      cases hgid : ((Value.object fields).get "id").bind Value.asU64 with
      | none =>
          have hreq : decodeRequest doc = none := by simp [decodeRequest, hid, hgid]
          have hres : decodeResponse doc = none := by simp [decodeResponse, hid, hgid]
          simpa [hreq, hres] using hev
      | some id =>
          by_cases hop : ((Value.object fields).get "op").bind Value.asStr = none
          · have hreq := decodeRequest_of_not_op hop (hshows _ (by simp))
            cases hgok : ((Value.object fields).get "ok").bind Value.asBool with
            | none =>
                have hres : decodeResponse doc = none := by simp [decodeResponse, hok, hgok]
                simpa [hreq, hres, hop] using hev
            | some ok =>
                have hres : decodeResponse doc = some (.response id ok (collect ["id", "ok"] doc)) := by
                  simp [decodeResponse, hid, hgid, hok, hgok]
                simp [hreq, hres]
          · obtain ⟨op, args, hreq⟩ := decodeRequest_of_op hop (hshows _ (by simp)) id (by simp [hid, hgid])
            simp [hreq, hop]

end Payload

/-- A frame is read back from its own document exactly when it is unambiguous. -/
theorem Frame.decode_encode_iff {frame : Frame} (hobj : frame.objectPayload) {doc : Value}
    (hdoc : frame.encode = some doc) : Frame.decode doc = some frame ↔ frame.unambiguous = true := by
  cases frame with
  | hello h =>
      obtain rfl : .object [("hello", h.encode)] = doc := by simpa [Frame.encode] using hdoc
      simp [Frame.decode, decodeHello, field, Hello.decode_encode, Frame.unambiguous]
  | welcome w =>
      obtain rfl : .object [("welcome", w.encode)] = doc := by simpa [Frame.encode] using hdoc
      simp [Frame.decode, decodeHello, decodeWelcome, field, Welcome.decode_encode, Frame.unambiguous]
  | welcomeErr w err =>
      obtain rfl : .object [("welcome", w.val), ("err", errPayload err)] = doc := by
        simpa [Frame.encode] using hdoc
      cases hw : Welcome.decode w.val <;>
        simp [Frame.decode, decodeHello, decodeWelcome, decodeWelcomeErr, field, hw,
          ErrPayload.decode_encode, Frame.unambiguous]
  | request id op args =>
      obtain rfl : .object [("id", ofU64 id), ("op", .string op), ("args", args.val)] = doc := by
        simpa [Frame.encode] using hdoc
      simp [Frame.decode, decodeHello, decodeWelcome, decodeWelcomeErr, decodeRequest, field,
        Frame.unambiguous]
  | response id ok payload =>
      obtain ⟨payload, hc⟩ := payload
      obtain ⟨fields, rfl⟩ := hobj
      obtain rfl : .object (("id", ofU64 id) :: ("ok", .bool ok) :: fields) = doc := by
        simpa [Frame.encode, flatten] using hdoc
      exact decode_response_iff hc id ok
  | event name payload =>
      obtain ⟨payload, hc⟩ := payload
      obtain ⟨fields, rfl⟩ := hobj
      obtain rfl : .object (("event", .string name) :: fields) = doc := by
        simpa [Frame.encode, flatten] using hdoc
      exact decode_event_iff hc name

end Zshrs.Daemon.Ipc
