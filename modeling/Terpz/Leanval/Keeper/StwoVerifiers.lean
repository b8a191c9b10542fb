import Terpz.Leanval.Keeper.Proofs

/-! The four named STWO verifiers and the two paths each may take: the wasm host in process, and
an external program that parses the header and compares its public inputs with the arguments. -/
namespace Terpz.Leanval.Keeper
open Lib

/-- One named circuit: its header tag, the width of its public inputs, and its message texts. -/
structure NamedStwo where
  kind : Bytes
  piLen : Nat
  what : String
  name : String
  bin : String
  cmd : String

/-- ASCII "SSLE". -/
def ssleStwo : NamedStwo := ⟨[0x53, 0x53, 0x4C, 0x45], 48, "an SSLE", "ssle", "lean-ssle", "ssle verify"⟩
/-- ASCII "DAYK". -/
def dailyStwo : NamedStwo :=
  ⟨[0x44, 0x41, 0x59, 0x4B], 72, "a daily-key", "daily", "lean-daily-keys", "daily verify"⟩
/-- ASCII "NWDA". -/
def noWithdrawStwo : NamedStwo :=
  ⟨[0x4E, 0x57, 0x44, 0x41], 72, "a no-withdraw", "no-withdraw", "lean-withdraw", "no-withdraw verify"⟩
/-- ASCII "PWDW". -/
def partialWithdrawStwo : NamedStwo :=
  ⟨[0x50, 0x57, 0x44, 0x57], 72, "a partial-withdraw", "partial-withdraw", "lean-withdraw", "partial verify"⟩

/-- Whether the wasm host is linked, which programs are found, and which STARKs are valid. Both
paths judge a STARK alike. -/
structure StwoEnv where
  linked : Bool
  found : String → Bool
  starkValid : Bytes → Bytes → Bool

def StwoEnv.verifyStwoInProcess (env : StwoEnv) (proof instances : Bytes) : Except String Unit := do
  failIf (!env.linked) "leanval: wasmvm Stwo host not linked"
  failIf (!env.starkValid proof instances) "stwo verify"

def pad32 (b : Bytes) : Bytes := padTo 32 b

def checkNamedStwo (c : NamedStwo) (proof : Bytes) : Except String Unit := do
  failIf (containsBytes proof dummyMagic) ("leanval: Dummy-N is not " ++ c.what ++ " proof")
  failIf (proof.length < 10 ∨ proof.take 4 ≠ stwoMagic) ("leanval: " ++ c.name ++ " proof must be STWO magic")
  failIf (proof.getD 4 0 ≠ 2 ∨ proof.getD 5 0 ≠ 5) ("leanval: " ++ c.name ++ " wants prover_id=2 curve_id=5")
  failIf (slice proof 6 10 ≠ c.kind) ("leanval: " ++ c.name ++ " kind missing")

/-- The instance the fast path hands to the host: read off the proof itself. -/
def ownInstance (c : NamedStwo) (proof : Bytes) : Bytes :=
  if proof.length ≥ 10 + c.piLen then slice proof 10 (10 + c.piLen) else []

/-- The errors of the external programs. -/
inductive VerifyError where
  | proofTooLarge (len : Nat)
  | truncated
  | badMagic
  | wrongProverId (got : UInt8)
  | wrongCurveId (got : UInt8)
  | publicInputMismatch
  | stwoVerify
  deriving DecidableEq, Repr

def parseHeader (c : NamedStwo) (proof : Bytes) : Except VerifyError Bytes := do
  failIf (proof.length > maxProofBytes) (.proofTooLarge proof.length)
  failIf (proof.length < 10 + c.piLen) .truncated
  failIf (proof.take 4 ≠ stwoMagic) .badMagic
  failIf (containsBytes proof dummyMagic) .badMagic
  failIf (proof.getD 4 0 ≠ 2) (.wrongProverId (proof.getD 4 0))
  failIf (proof.getD 5 0 ≠ 5) (.wrongCurveId (proof.getD 5 0))
  failIf (slice proof 6 10 ≠ c.kind) .badMagic
  pure (slice proof 10 (10 + c.piLen))

/-- The external program: the header's public inputs must be the packed arguments. -/
def verifyKind (env : StwoEnv) (c : NamedStwo) (proof want : Bytes) : Except VerifyError Unit := do
  let got ← parseHeader c proof
  failIf (got ≠ want) .publicInputMismatch
  failIf (!env.starkValid proof got) .stwoVerify

/-- A program that fails panics; what it prints is left out of the message. -/
def verifyNamedStwo (env : StwoEnv) (c : NamedStwo) (proof want : Bytes) : Except String Unit := do
  checkNamedStwo c proof
  match env.verifyStwoInProcess proof (ownInstance c proof) with
  | .ok _ => pure ()
  | .error _ =>
    failIf (!env.found c.bin) ("leanval: " ++ c.bin ++ " not on PATH (not cargo)")
    match verifyKind env c proof want with
    | .ok _ => pure ()
    | .error _ => .error ("leanval: " ++ c.cmd ++ ": exit status 101")

/-- Public inputs of a ticket: period, height, ticket. -/
def packSSLE (period : UInt64) (height : Int64) (ticket : Bytes) : Bytes :=
  putU64 period ++ putU64 height.toUInt64 ++ pad32 ticket

/-- Public inputs of the other circuits: period and two 32-byte words. -/
def packPair (period : UInt64) (left right : Bytes) : Bytes := putU64 period ++ pad32 left ++ pad32 right

def verifySSLEProof (env : StwoEnv) (proof : Bytes) (period : UInt64) (height : Int64) (ticket : Bytes) :
    Except String Unit := verifyNamedStwo env ssleStwo proof (packSSLE period height ticket)

def verifyDailyKeyProof (env : StwoEnv) (proof : Bytes) (period : UInt64) (dayKey prevRoot : Bytes) :
    Except String Unit := verifyNamedStwo env dailyStwo proof (packPair period dayKey prevRoot)

def verifyNoWithdrawProof (env : StwoEnv) (proof : Bytes) (period : UInt64) (acc prev : Bytes) :
    Except String Unit := verifyNamedStwo env noWithdrawStwo proof (packPair period acc prev)

def verifyPartialWithdrawProof (env : StwoEnv) (proof : Bytes) (period : UInt64) (old next : Bytes) :
    Except String Unit := verifyNamedStwo env partialWithdrawStwo proof (packPair period old next)

/-- The public inputs in the header, when the proof is long enough to have them. -/
def headerPI (c : NamedStwo) (proof : Bytes) : Option Bytes :=
  if proof.length ≥ 10 + c.piLen then some (slice proof 10 (10 + c.piLen)) else none

/-- A verifier binds its public inputs: it succeeds only on a header that carries them, and its
two paths accept the same proofs. -/
def Binds (env : StwoEnv) (c : NamedStwo) (proof want : Bytes) (result : Except String Unit) : Prop :=
  (result = .ok () → headerPI c proof = some want) ∧
  (checkNamedStwo c proof = .ok () → env.linked = true →
    (env.verifyStwoInProcess proof (ownInstance c proof) = .ok () ↔ verifyKind env c proof want = .ok ()))

/-- A proof the linked host accepts for its own header carries the arguments there. -/
def OwnHeaderMatches (env : StwoEnv) (c : NamedStwo) (proof want : Bytes) : Prop :=
  checkNamedStwo c proof = .ok () → env.linked = true → env.starkValid proof (ownInstance c proof) = true →
    headerPI c proof = some want ∧ proof.length ≤ maxProofBytes

section Paths
variable {env : StwoEnv} {c : NamedStwo} {proof want : Bytes}

theorem verifyStwoInProcess_eq_ok {inst : Bytes} :
    env.verifyStwoInProcess proof inst = .ok () ↔ env.linked = true ∧ env.starkValid proof inst = true := by
  rw [StwoEnv.verifyStwoInProcess, failIf_bind_eq_ok, failIf_eq_ok]
  simp

theorem checkNamedStwo_eq_ok :
    checkNamedStwo c proof = .ok () ↔ containsBytes proof dummyMagic = false ∧
      (10 ≤ proof.length ∧ proof.take 4 = stwoMagic) ∧ (proof.getD 4 0 = 2 ∧ proof.getD 5 0 = 5) ∧
      slice proof 6 10 = c.kind := by
  simp only [checkNamedStwo, failIf_bind_eq_ok, failIf_eq_ok, not_or, not_lt, not_not, Bool.not_eq_true]

theorem headerPI_eq_some {pi : Bytes} :
    headerPI c proof = some pi ↔ 10 + c.piLen ≤ proof.length ∧ ownInstance c proof = pi := by
  unfold headerPI ownInstance
  by_cases hl : proof.length ≥ 10 + c.piLen
  · simp [hl]
  · simp [hl]

private theorem parseHeader_eq_ok (hc : checkNamedStwo c proof = .ok ()) {got : Bytes} :
    parseHeader c proof = .ok got ↔ proof.length ≤ maxProofBytes ∧ headerPI c proof = some got := by
  obtain ⟨hd, ⟨_, hm⟩, ⟨h4, h5⟩, hk⟩ := checkNamedStwo_eq_ok.mp hc
  have hpure (b : Bytes) : (pure b : Except VerifyError Bytes) = .ok got ↔ b = got :=
    ⟨fun h => Except.ok.inj h, fun h => congrArg Except.ok h⟩
  simp only [parseHeader, failIf_bind_eq_ok, hm, hd, h4, h5, hk, hpure, ne_eq, not_true_eq_false, not_false_eq_true,
    Bool.false_eq_true, true_and, not_lt, headerPI]
  refine and_congr_right (fun _ => ?_)
  by_cases hl : 10 + c.piLen ≤ proof.length
  · simp [hl]
  · simp [hl]

/-- On a named proof the external program checks length, public inputs and the STARK. -/
theorem verifyKind_eq_ok (hc : checkNamedStwo c proof = .ok ()) :
    verifyKind env c proof want = .ok () ↔ proof.length ≤ maxProofBytes ∧ headerPI c proof = some want ∧
      env.starkValid proof want = true := by
  unfold verifyKind
  rw [bind_eq_ok]
  constructor
  · rintro ⟨got, hgot, hrest⟩
    obtain ⟨hl, hpi⟩ := (parseHeader_eq_ok hc).mp hgot
    rw [failIf_bind_eq_ok, failIf_eq_ok, not_not] at hrest
    obtain ⟨rfl, hv⟩ := hrest
    exact ⟨hl, hpi, by simpa using hv⟩
  · rintro ⟨hl, hpi, hv⟩
    refine ⟨want, (parseHeader_eq_ok hc).mpr ⟨hl, hpi⟩, ?_⟩
    rw [failIf_bind_eq_ok, failIf_eq_ok]
    simp [hv]

/-- A verifier succeeds when one of its two paths does. -/
theorem verifyNamedStwo_eq_ok :
    verifyNamedStwo env c proof want = .ok () ↔ checkNamedStwo c proof = .ok () ∧
      (env.verifyStwoInProcess proof (ownInstance c proof) = .ok () ∨
        (env.found c.bin = true ∧ verifyKind env c proof want = .ok ())) := by
  unfold verifyNamedStwo
  rw [bind_eq_ok]
  refine ⟨?_, ?_⟩
  · rintro ⟨_, hc, hrest⟩
    refine ⟨hc, ?_⟩
    cases hf : env.verifyStwoInProcess proof (ownInstance c proof) with
    | ok _ => exact .inl rfl
    | error e =>
      rw [hf, failIf_bind_eq_ok] at hrest
      obtain ⟨hfound, hrest⟩ := hrest
      refine .inr ⟨by simpa using hfound, ?_⟩
      cases hk : verifyKind env c proof want with
      | ok _ => rfl
      | error e =>
        rw [hk] at hrest
        cases hrest
  · rintro ⟨hc, hpath⟩
    refine ⟨(), hc, ?_⟩
    rcases hpath with hfast | ⟨hfound, hslow⟩
    · rw [hfast]
      rfl
    · cases hf : env.verifyStwoInProcess proof (ownInstance c proof) with
      | ok _ => rfl
      | error e =>
        rw [failIf_bind_eq_ok, hslow]
        exact ⟨by simp [hfound], rfl⟩

private theorem binds_iff :
    Binds env c proof want (verifyNamedStwo env c proof want) ↔ OwnHeaderMatches env c proof want := by
  constructor
  · rintro ⟨_, hpaths⟩ hc hlinked hv
    have hslow := (hpaths hc hlinked).mp (verifyStwoInProcess_eq_ok.mpr ⟨hlinked, hv⟩)
    obtain ⟨hl, hpi, _⟩ := (verifyKind_eq_ok hc).mp hslow
    exact ⟨hpi, hl⟩
  · intro hown
    refine ⟨?_, ?_⟩
    · intro hok
      obtain ⟨hc, hfast | ⟨_, hslow⟩⟩ := verifyNamedStwo_eq_ok.mp hok
      · obtain ⟨hlinked, hv⟩ := verifyStwoInProcess_eq_ok.mp hfast
        exact (hown hc hlinked hv).1
      · exact ((verifyKind_eq_ok hc).mp hslow).2.1
    · intro hc hlinked
      rw [verifyStwoInProcess_eq_ok, verifyKind_eq_ok hc]
      constructor
      · rintro ⟨_, hv⟩
        obtain ⟨hpi, hl⟩ := hown hc hlinked hv
        refine ⟨hl, hpi, ?_⟩
        rwa [(headerPI_eq_some.mp hpi).2] at hv
      · rintro ⟨_, hpi, hv⟩
        refine ⟨hlinked, ?_⟩
        rwa [(headerPI_eq_some.mp hpi).2]

end Paths

/-- Each of the four verifiers binds its public inputs on both paths exactly when a proof that is
valid for its own header carries the arguments in that header. -/
theorem stwo_verifiers_bind_iff (env : StwoEnv) (proof : Bytes) (period : UInt64) :
    (∀ height ticket, Binds env ssleStwo proof (packSSLE period height ticket)
        (verifySSLEProof env proof period height ticket) ↔
      OwnHeaderMatches env ssleStwo proof (packSSLE period height ticket)) ∧
    (∀ dayKey prevRoot, Binds env dailyStwo proof (packPair period dayKey prevRoot)
        (verifyDailyKeyProof env proof period dayKey prevRoot) ↔
      OwnHeaderMatches env dailyStwo proof (packPair period dayKey prevRoot)) ∧
    (∀ acc prev, Binds env noWithdrawStwo proof (packPair period acc prev)
        (verifyNoWithdrawProof env proof period acc prev) ↔
      OwnHeaderMatches env noWithdrawStwo proof (packPair period acc prev)) ∧
    (∀ old next, Binds env partialWithdrawStwo proof (packPair period old next)
        (verifyPartialWithdrawProof env proof period old next) ↔
      OwnHeaderMatches env partialWithdrawStwo proof (packPair period old next)) := by
  refine ⟨?_, ?_, ?_, ?_⟩
  · exact fun height ticket => binds_iff
  · exact fun dayKey prevRoot => binds_iff
  · exact fun acc prev => binds_iff
  · exact fun old next => binds_iff

/-- A linked host and STARKs that are valid for exactly the public inputs in their header. -/
def linkedEnv : StwoEnv where
  linked := true
  found _ := true
  starkValid proof inst := slice proof 10 (10 + inst.length) == inst

def headerOf (c : NamedStwo) (pi : Bytes) : Bytes := stwoMagic ++ [2, 5] ++ c.kind ++ pi

/-- Proofs made for period 1 pass in period 2. -/
theorem replayed_proofs_accepted :
    let w := List.replicate 32 (7 : UInt8)
    let ssle := headerOf ssleStwo (packSSLE 1 9 w)
    let daily := headerOf dailyStwo (packPair 1 w w)
    let noWithdraw := headerOf noWithdrawStwo (packPair 1 w w)
    let part := headerOf partialWithdrawStwo (packPair 1 w w)
    (verifySSLEProof linkedEnv ssle 2 9 w = .ok () ∧ headerPI ssleStwo ssle ≠ some (packSSLE 2 9 w)) ∧
    (verifyDailyKeyProof linkedEnv daily 2 w w = .ok () ∧ headerPI dailyStwo daily ≠ some (packPair 2 w w)) ∧
    (verifyNoWithdrawProof linkedEnv noWithdraw 2 w w = .ok () ∧
      headerPI noWithdrawStwo noWithdraw ≠ some (packPair 2 w w)) ∧
    (verifyPartialWithdrawProof linkedEnv part 2 w w = .ok () ∧
      headerPI partialWithdrawStwo part ≠ some (packPair 2 w w)) := by
  decide +kernel

end Terpz.Leanval.Keeper
