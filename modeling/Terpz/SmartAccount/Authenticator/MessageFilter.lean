import Terpz.Lib.Json
import Terpz.SmartAccount.Types

/-! The message filter: an authenticator whose JSON pattern has to be part of the message's own JSON. Patterns are
ordered by that relation, and a filter accepts no more when its pattern grows. -/
namespace Terpz.SmartAccount
open Lib

/-- The type as `%T` prints it. -/
def goType : Json → Text
  | .null => text "<nil>"
  | .bool _ => text "bool"
  | .number _ => text "float64"
  | .string _ => text "string"
  | .array _ _ => text "[]interface \x7b\x7d"
  | .object _ _ => text "map[string]interface \x7b\x7d"

def fmtErrorf (message : Text) : Err := ⟨.other, message⟩

/-- What the filter uses of `encoding/json`, `math` and `fmt`. -/
structure JsonLib where
  unmarshal : Bytes → Except Err Json
  /-- `json.Unmarshal` into a `RawMessage`: the syntax alone. -/
  unmarshalRaw : Bytes → Except Err Unit
  /-- `LegacyNewDecFromStr`, in units of 10^-18. -/
  legacyNewDecFromStr : Text → Option Int
  formatDec : Int → Text
  /-- The value as `%v` prints it. -/
  formatValue : Json → Text

def checkForFloats : Json → Bool
  | .object keys vals => (sortedKeys keys).any (fun k => checkForFloats (vals k))
  | .array n elems => (List.finRange n).any (fun i => checkForFloats (elems i))
  | .number _ => true
  | .null | .bool _ | .string _ => false

theorem checkForFloats_eq_false {a : Json} : checkForFloats a = false ↔ a.NumberFree := by
  induction a with
  | null => simp [checkForFloats, Json.NumberFree]
  | bool b => simp [checkForFloats, Json.NumberFree]
  | number bits => simp [checkForFloats, Json.NumberFree]
  | string s => simp [checkForFloats, Json.NumberFree]
  | array n elems ih =>
    simp only [checkForFloats, Json.NumberFree, List.any_eq_false, Bool.not_eq_true, ih]
    exact ⟨fun h i => h i (List.mem_finRange i), fun h i _ => h i⟩
  | object keys vals ih =>
    simp only [checkForFloats, Json.NumberFree, List.any_eq_false, Bool.not_eq_true, ih]
    exact ⟨fun h k => h k (mem_sortedKeys k), fun h k _ => h k⟩

namespace JsonLib
variable (lib : JsonLib)

/-- The comparison of two strings that both read as decimals. -/
def decimalsMatch (a b : Text) : Except Err Unit :=
  match lib.legacyNewDecFromStr a, lib.legacyNewDecFromStr b with
  | some decA, some decB =>
    failIf (decA ≠ decB) (fmtErrorf (text "numbers do not match: " ++ lib.formatDec decA ++ text " != " ++
      lib.formatDec decB))
  | _, _ => .ok ()

def stringsMatch (av bv : Text) : Except Err Unit := do
  lib.decimalsMatch av bv
  failIf (av ≠ bv) (fmtErrorf (text "strings do not match: " ++ av ++ text " != " ++ bv))

theorem decimalsMatch_self (a : Text) : lib.decimalsMatch a a = .ok () := by
  unfold decimalsMatch
  cases lib.legacyNewDecFromStr a with
  | none => rfl
  | some dec => simp

/-- Reading strings as decimals decides only which error is returned. -/
theorem stringsMatch_eq_ok {av bv : Text} : lib.stringsMatch av bv = .ok () ↔ av = bv := by
  rw [stringsMatch, bind_eq_ok]
  constructor
  · rintro ⟨_, -, hsame⟩
    simpa using hsame
  · rintro rfl
    exact ⟨(), lib.decimalsMatch_self av, by simp⟩

def isSuperset : Json → Json → Except Err Unit
  | .object keys vals, b =>
    match b with
    | .object keysB valsB =>
      checkEach (fun key : {k // k ∈ keys} =>
        if exists_ : key.1 ∈ keysB then isSuperset (vals key) (valsB ⟨key.1, exists_⟩)
        else .error (fmtErrorf (text "key " ++ key.1 ++ text " missing from second map"))) (sortedKeys keys)
    | _ => .error (fmtErrorf (text "expected map, got " ++ goType b))
  | .array n elems, b =>
    match b with
    | .array m elemsB =>
      if le : n ≤ m then checkEach (fun i => isSuperset (elems i) (elemsB (i.castLE le))) (List.finRange n)
      else .error (fmtErrorf (text "first slice has more elements than second slice"))
    | _ => .error (fmtErrorf (text "expected slice, got " ++ goType b))
  | .string av, b =>
    match b with
    | .string bv => lib.stringsMatch av bv
    | _ => .error (fmtErrorf (text "expected string, got " ++ goType b))
  | .bool av, b =>
    match b with
    | .bool bv =>
      if av = bv then .ok ()
      else .error (fmtErrorf (text "booleans do not match or wrong type: " ++ lib.formatValue (.bool av) ++
        text " != " ++ lib.formatValue b))
    | _ => .error (fmtErrorf (text "booleans do not match or wrong type: " ++ lib.formatValue (.bool av) ++
        text " != " ++ lib.formatValue b))
  | .null, b =>
    match b with
    | .null => .ok ()
    | _ => .error (fmtErrorf (text "expected null, got " ++ goType b))
  | .number _, _ =>
    .error (fmtErrorf (text "numbers encoded as floats are not allowed. They should be encoded as strings"))

private theorem isSuperset_object {keys keys' : Finset Text} {vals : {k // k ∈ keys} → Json}
    {vals' : {k // k ∈ keys'} → Json} (ih : ∀ k b, lib.isSuperset (vals k) b = .ok () ↔ Json.Part (vals k) b) :
    lib.isSuperset (.object keys vals) (.object keys' vals') = .ok () ↔
      Json.Part (.object keys vals) (.object keys' vals') := by
  rw [isSuperset, checkEach_eq_ok]
  constructor
  · intro h
    have hsub : keys ⊆ keys' := by
      intro k hk
      by_contra hmissing
      simpa [hmissing] using h ⟨k, hk⟩ (mem_sortedKeys _)
    refine .object hsub (fun k => (ih k _).mp ?_)
    simpa only [dif_pos (hsub k.2)] using h k (mem_sortedKeys k)
  · rintro (_ | _ | _ | _ | ⟨hsub, hfound⟩) k -
    rw [dif_pos (hsub k.2), ih]
    exact hfound k

private theorem isSuperset_array {n m : Nat} {xs : Fin n → Json} {ys : Fin m → Json}
    (ih : ∀ i b, lib.isSuperset (xs i) b = .ok () ↔ Json.Part (xs i) b) :
    lib.isSuperset (.array n xs) (.array m ys) = .ok () ↔ Json.Part (.array n xs) (.array m ys) := by
  rw [isSuperset]
  constructor
  · intro h
    by_cases hle : n ≤ m
    · rw [dif_pos hle, checkEach_eq_ok] at h
      exact .array hle (fun i => (ih i _).mp (h i (List.mem_finRange i)))
    · simp [hle] at h
  · rintro (_ | _ | _ | ⟨hle, helems⟩ | _)
    rw [dif_pos hle, checkEach_eq_ok]
    exact fun i _ => (ih i _).mpr (helems i)

/-- The check succeeds exactly on the parts of a value. -/
theorem isSuperset_eq_ok {a b : Json} : lib.isSuperset a b = .ok () ↔ Json.Part a b := by
  induction a generalizing b with
  | null =>
    cases b with
    | null => exact ⟨fun _ => .null, fun _ => rfl⟩
    | _ => exact ⟨nofun, nofun⟩
  | bool av =>
    cases b with
    | bool bv =>
      rw [isSuperset]
      by_cases hsame : av = bv
      · subst hsame
        simp [Json.Part.bool]
      · simp only [if_neg hsame]
        exact ⟨nofun, fun h => by cases h; exact absurd rfl hsame⟩
    | _ => exact ⟨nofun, nofun⟩
  | number bits => exact ⟨nofun, nofun⟩
  | string av =>
    cases b with
    | string bv =>
      rw [isSuperset, stringsMatch_eq_ok]
      exact ⟨fun h => h ▸ .string av, fun h => by cases h; rfl⟩
    | _ => exact ⟨nofun, nofun⟩
  | array n xs ih =>
    cases b with
    | array m ys => exact lib.isSuperset_array (fun i _ => ih i)
    | _ => exact ⟨nofun, nofun⟩
  | object keys vals ih =>
    cases b with
    | object keys' vals' => exact lib.isSuperset_object (fun k _ => ih k)
    | _ => exact ⟨nofun, nofun⟩

def isJsonSuperset (a b : Bytes) : Except Err Unit :=
  match lib.unmarshal a with
  | .error errA => .error (fmtErrorf (text "error unmarshaling first JSON: " ++ errA.message))
  | .ok av =>
    match lib.unmarshal b with
    | .error errB => .error (fmtErrorf (text "error unmarshaling second JSON: " ++ errB.message))
    | .ok bv => lib.isSuperset av bv

theorem isJsonSuperset_eq_ok {a b : Bytes} : lib.isJsonSuperset a b = .ok () ↔
    ∃ av bv, lib.unmarshal a = .ok av ∧ lib.unmarshal b = .ok bv ∧ Json.Part av bv := by
  unfold isJsonSuperset
  cases lib.unmarshal a with
  | error e => simp
  | ok av =>
    cases lib.unmarshal b with
    | error e => simp
    | ok bv => simp [isSuperset_eq_ok]

def containsFloats (data : Bytes) : Except Err Bool := (lib.unmarshal data).map checkForFloats

end JsonLib

/-- The interface registry and the codec over the messages `M`. -/
structure EncodingConfig (M : Type) where
  resolve : Text → Except Err M
  unmarshal : Bytes → M → Except Err M
  marshalInterfaceJSON : M → Except Err Bytes

structure MessageFilter (M : Type) where
  encCfg : EncodingConfig M
  pattern : Bytes

namespace MessageFilter
variable {M : Type}

def new (encCfg : EncodingConfig M) : MessageFilter M := ⟨encCfg, []⟩

variable (lib : JsonLib) (m : MessageFilter M)

def initializeFilter (config : Bytes) : Except Err (MessageFilter M) := do
  (lib.unmarshalRaw config).mapError (fun e => e.wrap (text "invalid json representation of message"))
  .ok { m with pattern := config }

/-- The JSON of the request's message. -/
def messageJson (request : AuthenticationRequest) : Except Err Bytes := do
  let responseType ← (m.encCfg.resolve request.msg.typeUrl).mapError
    (fun e => e.wrap (text "failed to resolve message type"))
  let message ← (m.encCfg.unmarshal request.msg.value responseType).mapError
    (fun e => e.wrap (text "failed to unmarshal message"))
  (m.encCfg.marshalInterfaceJSON message).mapError (fun e => e.wrap (text "failed to marshal message to JSON"))

def authenticate (request : AuthenticationRequest) : Except Err Unit := do
  let jsonBz ← m.messageJson request
  (lib.isJsonSuperset m.pattern jsonBz).mapError (fun e => e.wrap (text "message does not match pattern"))

def onAuthenticatorAdded (config : Bytes) : Except Err Unit := do
  (lib.unmarshalRaw config).mapError (fun e => e.wrap (text "invalid json representation of message"))
  let hasFloats ← (lib.containsFloats config).mapError
    (fun e => e.wrap (text "invalid json representation of message"))
  failIf (hasFloats = true)
    (fmtErrorf (text "invalid json representation of message. Numbers should be encoded as strings"))

variable {lib m}

theorem initializeFilter_eq_ok {config : Bytes} {filter : MessageFilter M} :
    m.initializeFilter lib config = .ok filter ↔
      lib.unmarshalRaw config = .ok () ∧ filter = { m with pattern := config } := by
  rw [initializeFilter, bind_eq_ok]
  simp only [mapError_eq_ok, Except.ok.injEq, eq_comm (a := filter)]
  exact ⟨fun ⟨_, hraw, hfilter⟩ => ⟨hraw, hfilter⟩, fun ⟨hraw, hfilter⟩ => ⟨(), hraw, hfilter⟩⟩

theorem authenticate_eq_ok {request : AuthenticationRequest} : m.authenticate lib request = .ok () ↔
    ∃ jsonBz, m.messageJson request = .ok jsonBz ∧ lib.isJsonSuperset m.pattern jsonBz = .ok () := by
  rw [authenticate, bind_eq_ok]
  simp only [mapError_eq_ok]

theorem onAuthenticatorAdded_eq_ok {config : Bytes} : onAuthenticatorAdded lib config = .ok () ↔
    lib.unmarshalRaw config = .ok () ∧ ∃ value, lib.unmarshal config = .ok value ∧ value.NumberFree := by
  rw [onAuthenticatorAdded, bind_eq_ok]
  simp only [bind_eq_ok, mapError_eq_ok, JsonLib.containsFloats, map_eq_ok, failIf_eq_ok, Bool.not_eq_true]
  constructor
  · rintro ⟨_, hraw, hasFloats, ⟨value, hvalue, rfl⟩, hnone⟩
    exact ⟨hraw, value, hvalue, checkForFloats_eq_false.mp hnone⟩
  · rintro ⟨hraw, value, hvalue, hfree⟩
    exact ⟨(), hraw, _, ⟨value, hvalue, rfl⟩, checkForFloats_eq_false.mpr hfree⟩

/-- What a filter accepts, a filter with a part of its pattern accepts. -/
theorem authenticate_of_part {p q : Bytes} {request : AuthenticationRequest}
    (hpart : lib.isJsonSuperset p q = .ok ())
    (h : ({ m with pattern := q } : MessageFilter M).authenticate lib request = .ok ()) :
    ({ m with pattern := p } : MessageFilter M).authenticate lib request = .ok () := by
  obtain ⟨jsonBz, hjson, hq⟩ := authenticate_eq_ok.mp h
  obtain ⟨pv, qv, hp, hqv, hpq⟩ := lib.isJsonSuperset_eq_ok.mp hpart
  obtain ⟨qv', message, hqv', hmessage, hqm⟩ := lib.isJsonSuperset_eq_ok.mp hq
  obtain rfl : qv = qv' := Except.ok.inj (hqv.symm.trans hqv')
  exact authenticate_eq_ok.mpr ⟨jsonBz, hjson,
    lib.isJsonSuperset_eq_ok.mpr ⟨pv, message, hp, hmessage, hpq.trans hqm⟩⟩

end MessageFilter

/-- Patterns without numbers are partially ordered, and an accepted pattern, which makes a filter, rejects nothing
that a pattern it matches accepts. -/
theorem message_filter_patterns_ordered {M : Type} (lib : JsonLib) (encCfg : EncodingConfig M) :
    (∀ a, checkForFloats a = false → lib.isSuperset a a = .ok ()) ∧
    (∀ a b c, lib.isSuperset a b = .ok () → lib.isSuperset b c = .ok () → lib.isSuperset a c = .ok ()) ∧
    (∀ a b, lib.isSuperset a b = .ok () → lib.isSuperset b a = .ok () → a = b) ∧
    ∀ p, MessageFilter.onAuthenticatorAdded lib p = .ok () →
      ∃ filter, (MessageFilter.new encCfg).initializeFilter lib p = .ok filter ∧
        ∀ q stricter, lib.isJsonSuperset p q = .ok () →
          (MessageFilter.new encCfg).initializeFilter lib q = .ok stricter →
            ∀ request, stricter.authenticate lib request = .ok () → filter.authenticate lib request = .ok () := by
  refine ⟨?_, ?_, ?_, ?_⟩
  · intro a hfree
    exact lib.isSuperset_eq_ok.mpr (checkForFloats_eq_false.mp hfree).part_self
  · intro a b c hab hbc
    exact lib.isSuperset_eq_ok.mpr ((lib.isSuperset_eq_ok.mp hab).trans (lib.isSuperset_eq_ok.mp hbc))
  · intro a b hab hba
    exact (lib.isSuperset_eq_ok.mp hab).antisymm (lib.isSuperset_eq_ok.mp hba)
  · intro p hadded
    have hraw := (MessageFilter.onAuthenticatorAdded_eq_ok.mp hadded).1
    refine ⟨_, MessageFilter.initializeFilter_eq_ok.mpr ⟨hraw, rfl⟩, ?_⟩
    intro q stricter hpart hstricter request haccepted
    obtain ⟨-, rfl⟩ := MessageFilter.initializeFilter_eq_ok.mp hstricter
    exact MessageFilter.authenticate_of_part hpart haccepted

/-- Three texts are JSON here: the empty object, and the object with one or with two of the strings `a` and `b`. -/
def filterLib : JsonLib where
  unmarshal bs :=
    if bs = text "\x7b\x7d" then .ok (.object ∅ (fun _ => .null))
    else if bs = text "\x7b\"a\":\"1\"\x7d" then .ok (.object {text "a"} (fun _ => .string (text "1")))
    else if bs = text "\x7b\"a\":\"1\",\"b\":\"1\"\x7d" then
      .ok (.object {text "a", text "b"} (fun _ => .string (text "1")))
    else .error (fmtErrorf (text "unexpected end of JSON input"))
  unmarshalRaw _ := .ok ()
  legacyNewDecFromStr s := if s = text "1" then some (10 ^ 18) else none
  formatDec _ := text "1.000000000000000000"
  formatValue _ := []

/-- A message is its own JSON. -/
def filterEncoding : EncodingConfig Bytes where
  resolve _ := .ok []
  unmarshal value _ := .ok value
  marshalInterfaceJSON message := .ok message

def filterRequest (message : Bytes) : AuthenticationRequest where
  authenticatorId := []
  account := []
  feePayer := []
  feeGranter := []
  fee := []
  msg := ⟨text "/m", message⟩
  msgIndex := 0
  signature := []
  signModeDirect := []
  txData := ⟨[], 0, 0, 0, [], []⟩
  signatureData := ⟨[], []⟩
  simulate := false

theorem message_filter_patterns_ordered_sample :
    ∃ filter, (MessageFilter.new filterEncoding).initializeFilter filterLib (text "\x7b\x7d") = .ok filter ∧
      filter.authenticate filterLib (filterRequest (text "\x7b\"a\":\"1\",\"b\":\"1\"\x7d")) = .ok () := by
  obtain ⟨-, -, -, hfilter⟩ := message_filter_patterns_ordered filterLib filterEncoding
  obtain ⟨filter, hinit, hstricter⟩ := hfilter (text "\x7b\x7d") (by decide +kernel)
  exact ⟨filter, hinit, hstricter (text "\x7b\"a\":\"1\"\x7d") _ (by decide +kernel) rfl _ (by decide +kernel)⟩

end Terpz.SmartAccount
