import Terpz.Lib.Run
import Terpz.Leanval.Cwffi.Replica

/-! Catch-up over every interleaving of driver calls. A fetched payload is executed on the word
of whichever verifier is installed at that moment, and nothing compares the digest inside the
certificate with the payload. -/
namespace Terpz.Leanval.Cwffi
open Lib

/-- A certificate scheme: which bytes are a finalization validly signed by a committee, and the
proposal digest inside it. -/
structure Scheme where
  signed : VerifyCert
  proposal : Bytes → Bytes

section
variable {σ : Type} (app : EngineApp σ)

/-- A driver as it is built, with no verifier yet. -/
def startNode (a : σ) (proposer : Bytes) (q : Option (σ → StoreQuery)) : Node σ :=
  ⟨{ newDriver app a proposer with storeQuery := q }, a⟩

/-- The only verifier ever installed is the scheme's own. -/
def Installs (S : Scheme) (calls : List (Int × Call)) : Prop :=
  ∀ now v, (now, .setVerifyCert v) ∈ calls → v = S.signed

/-- A fetched pair that gets through all other checks is bound when a verifier is installed before
it and a validly signed finalization that comes with the payload is a finalization of it. -/
def Bound (S : Scheme) (n : Node σ) : Int × Call → Prop
  | (_, .applyRemote payload cert) =>
    cert ≠ [] → (n.decision 0 (sha256 payload) payload cert false).isSome = true →
    n.driver.verifyCert ≠ none ∧
      (S.signed (n.participantsAndWeights 0).1 (n.participantsAndWeights 0).2 cert = true →
        S.proposal cert = sha256 payload)
  | _ => True

end

section
variable {σ : Type} {app : EngineApp σ}

theorem run_verifyCert (app : EngineApp σ) {S : Scheme} {n : Node σ} {calls : List (Int × Call)} (hS : Installs S calls)
    (h0 : n.driver.verifyCert = none ∨ n.driver.verifyCert = some S.signed) :
    (run (nodeStep app) n calls).driver.verifyCert = none ∨
      (run (nodeStep app) n calls).driver.verifyCert = some S.signed := by
  induction calls generalizing n with
  | nil => exact h0
  | cons c calls ih =>
    refine ih (fun now v hv => hS now v (List.mem_cons_of_mem _ hv)) ?_
    obtain ⟨now, c⟩ := c
    rw [nodeStep, (call_wiring n now c).2]
    cases c with
    | setVerifyCert v => exact .inr (congrArg some (hS now v List.mem_cons_self))
    | _ => exact h0

/-- What is decided for a fetched pair is decided without the check of the certificate as well. -/
private theorem decision_local {n : Node σ} {epoch : UInt64} {digest payload cert : Bytes} {dec : Decision}
    (h : n.decision epoch digest payload cert true = some dec) :
    n.decision epoch digest payload cert false = some dec := by
  unfold Node.decision at h ⊢
  cases hp : decodePayload payload with
  | error e =>
    rw [hp] at h
    cases h
  | ok p =>
    simp only [hp, Option.ite_none_left_eq_some] at h ⊢
    exact ⟨h.1, h.2.1, by simp, h.2.2.2⟩

/-- A committed fetch has both parts and was decided. -/
private theorem applyRemote_commit {n : Node σ} {now : Int} {payload cert : Bytes}
    (hc : .commit ∈ (n.call app now (.applyRemote payload cert)).2) :
    cert ≠ [] ∧ ∃ dec, n.decision 0 (sha256 payload) payload cert true = some dec := by
  simp only [Node.call, Node.applyRemote] at hc
  split at hc
  · cases hc
  · next hne => exact ⟨fun hnil => hne (.inr (by rw [hnil]; rfl)), mem_finalizeWith_commit hc⟩

/-- Under an installed verifier a committed fetch was accepted by it. -/
theorem applyRemote_commit_verified {n : Node σ} {now : Int} {payload cert : Bytes} {v : VerifyCert}
    (hv : n.driver.verifyCert = some v) (hc : .commit ∈ (n.call app now (.applyRemote payload cert)).2) :
    v (n.participantsAndWeights 0).1 (n.participantsAndWeights 0).2 cert = true := by
  obtain ⟨-, dec, hd⟩ := applyRemote_commit hc
  obtain ⟨_, _, _, hpart, _, hrem, _⟩ := decision_eq_some hd
  have hrem := hrem rfl
  simp only [remoteRefused, hv, Bool.or_eq_false_iff, Bool.not_eq_false'] at hrem
  rw [← hpart]
  exact hrem.2

/-- In a run whose fetched pairs are all bound, a fetched payload that is committed came with a
certificate the verifier accepted for the committee of that moment, and of that payload. -/
theorem catch_up_executes_certified {S : Scheme} {a : σ} {proposer : Bytes} {q : Option (σ → StoreQuery)}
    {calls pre post : List (Int × Call)} {now : Int} {payload cert : Bytes} (hS : Installs S calls)
    (h : Along (nodeStep app) (Bound S) (startNode app a proposer q) calls)
    (hsplit : calls = pre ++ (now, .applyRemote payload cert) :: post)
    (hc : .commit ∈
      ((run (nodeStep app) (startNode app a proposer q) pre).call app now (.applyRemote payload cert)).2) :
    (run (nodeStep app) (startNode app a proposer q) pre).driver.verifyCert = some S.signed ∧
    S.signed ((run (nodeStep app) (startNode app a proposer q) pre).participantsAndWeights 0).1
      ((run (nodeStep app) (startNode app a proposer q) pre).participantsAndWeights 0).2 cert = true ∧
    S.proposal cert = sha256 payload := by
  subst hsplit
  obtain ⟨hcert, dec, hd⟩ := applyRemote_commit hc
  obtain ⟨hsome, hbound⟩ : _ ∧ _ := h.at_step hcert (by rw [decision_local hd]; rfl)
  have hpre : Installs S pre := fun now v hv => hS now v (List.mem_append_left _ hv)
  have hv := (run_verifyCert app hpre (.inl rfl)).resolve_left hsome
  have hsigned := applyRemote_commit_verified hv hc
  exact ⟨hv, hsigned, hbound hsigned⟩

end

/-- A scheme with one genuine finalization, of the empty first block. -/
def soleScheme : Scheme := ⟨fun _ _ cert => cert == quadCert [0, 1, 2], fun cert => (parseLeanCert cert).1.digest⟩

def quadStart : Node Store := startNode (idleApp Store) quadStore [1] (some subspaceQuery)

/-- Another first block. -/
def forgedBlock : Bytes := Payload.encode ⟨1, [[0xde, 0xad]]⟩

def installCall : Int × Call := (1, .setVerifyCert soleScheme.signed)

/-- Before a verifier is installed any bytes pass for a certificate; after it, the genuine
certificate of one block commits another. -/
theorem catch_up_commits_uncertified :
    (.commit ∈ (quadStart.call (idleApp Store) 2 (.applyRemote forgedBlock [0x00])).2 ∧
      soleScheme.signed (quadStart.participantsAndWeights 0).1 (quadStart.participantsAndWeights 0).2 [0x00] = false) ∧
    (.commit ∈ ((run (nodeStep (idleApp Store)) quadStart [installCall]).call (idleApp Store) 2
        (.applyRemote forgedBlock (quadCert [0, 1, 2]))).2 ∧
      soleScheme.proposal (quadCert [0, 1, 2]) ≠ sha256 forgedBlock) := by
  decide +kernel

private theorem genuine_pair :
    .commit ∈ ((run (nodeStep (idleApp Store)) quadStart [installCall]).call (idleApp Store) 2
        (.applyRemote emptyBlock (quadCert [0, 1, 2]))).2 ∧
      soleScheme.proposal (quadCert [0, 1, 2]) = sha256 emptyBlock := by
  decide +kernel

/-- The genuine pair, fetched after the verifier was installed, commits as certified. -/
theorem catch_up_executes_genuine_pair :
    .commit ∈ ((run (nodeStep (idleApp Store)) quadStart [installCall]).call (idleApp Store) 2
        (.applyRemote emptyBlock (quadCert [0, 1, 2]))).2 ∧
    (run (nodeStep (idleApp Store)) quadStart [installCall]).driver.verifyCert = some soleScheme.signed ∧
    soleScheme.proposal (quadCert [0, 1, 2]) = sha256 emptyBlock := by
  have hinstalls : Installs soleScheme ([installCall] ++ (2, .applyRemote emptyBlock (quadCert [0, 1, 2])) :: []) := by
    intro now v hv
    rcases List.mem_cons.mp hv with hv | hv
    · exact Call.setVerifyCert.inj (Prod.mk.inj hv).2
    · cases List.mem_singleton.mp hv
  have halong : Along (nodeStep (idleApp Store)) (Bound soleScheme) quadStart
      ([installCall] ++ (2, .applyRemote emptyBlock (quadCert [0, 1, 2])) :: []) :=
    Along.cons trivial (Along.cons (fun _ _ => ⟨Option.some_ne_none _, fun _ => genuine_pair.2⟩) (Along.nil _))
  obtain ⟨hv, _, hp⟩ := catch_up_executes_certified hinstalls halong rfl genuine_pair.1
  exact ⟨genuine_pair.1, hv, hp⟩

end Terpz.Leanval.Cwffi
