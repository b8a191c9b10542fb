import Terpz.Lib.Checks
import Terpz.Lib.Table

/-! Records, parameters and errors of `x/hashmerchant`. Strings are byte strings, as in the source. -/
namespace Terpz.Hashmerchant
open Lib

inductive ErrKind where
  | chainNotFound | chainAlreadyExists | contractNotFound | escrowNotFound | hashRootNotFound | insufficientEscrow
  | invalidChainUid | unauthorized | invalidParams | chainDisabled
  | invalidSigner | insufficientFunds | attestation | decoding | panicked
  deriving DecidableEq, Repr

/-- A registered error and the text it is wrapped with. -/
structure Err where
  kind : ErrKind
  text : Text
  deriving DecidableEq, Repr

def intText (i : Int) : Text := (if i < 0 then text "-" else []) ++ decimal i.natAbs

/-- Fixed-point decimals: integers in units of 10^-18. -/
abbrev LegacyDec := Int

def decUnit : Int := 10 ^ 18

def LegacyDec.toText (d : LegacyDec) : Text :=
  let frac := decimal (d.natAbs % 10 ^ 18)
  (if d < 0 then text "-" else []) ++ decimal (d.natAbs / 10 ^ 18) ++ text "." ++
    List.replicate (18 - frac.length) 48 ++ frac

/-- `MulInt64` is exact and `TruncateInt` rounds towards zero. -/
def LegacyDec.mulTruncate (d : LegacyDec) (n : Int64) : Int64 := Int64.ofInt ((d * n.toInt).tdiv decUnit)

structure Params where
  quorumFraction : LegacyDec
  pruneInterval : UInt64
  escrowDenom : Text
  minEscrowAmount : Int
  deriving DecidableEq, Repr

def defaultParams : Params where
  quorumFraction := 667 * 10 ^ 15
  pruneInterval := 1000
  escrowDenom := text "uterp"
  minEscrowAmount := 1000000

def Params.validate (p : Params) : Except Err Unit := do
  failIf (p.quorumFraction < 0 ∨ decUnit < p.quorumFraction)
    ⟨.invalidParams, text "quorum_fraction must be in [0, 1], got " ++ p.quorumFraction.toText⟩
  failIf (p.pruneInterval = 0) ⟨.invalidParams, text "prune_interval must be > 0"⟩
  failIf (p.escrowDenom = []) ⟨.invalidParams, text "escrow_denom must not be empty"⟩
  failIf (p.minEscrowAmount < 0) ⟨.invalidParams, text "min_escrow_amount must be >= 0"⟩

theorem Params.validate_eq_ok {p : Params} : p.validate = .ok () ↔
    (0 ≤ p.quorumFraction ∧ p.quorumFraction ≤ decUnit) ∧ p.pruneInterval ≠ 0 ∧ p.escrowDenom ≠ [] ∧
      0 ≤ p.minEscrowAmount := by
  simp only [validate, failIf_bind_eq_ok, failIf_eq_ok, not_or, not_lt, ne_eq]

theorem defaultParams_validate : defaultParams.validate = .ok () := by decide +kernel

structure Coin where
  denom : Text
  amount : Int
  deriving DecidableEq, Repr

structure CustodyAuthenticator where
  pubkey : Bytes
  algorithm : Text
  scope : Text
  deriving DecidableEq, Repr

structure OracleSource where
  sourceId : Text
  kind : Nat
  endpoint : Text
  merklePrefix : List Bytes
  authenticator : Option CustodyAuthenticator
  enabled : Bool
  deriving DecidableEq, Repr

structure RegisteredChain where
  chainUid : Text
  name : Text
  rpcEndpoints : List Text
  hashAlgos : List Text
  enabled : Bool
  oracleSources : List OracleSource
  deriving DecidableEq, Repr

structure RegisteredContract where
  contractAddr : Text
  chainUid : Text
  substoreKeys : List Text
  enabled : Bool
  deriving DecidableEq, Repr

structure EscrowRecord where
  contractAddr : Text
  amount : Coin
  paidUntilHeight : UInt64
  lastPruneHeight : UInt64
  deriving DecidableEq, Repr

structure OracleAttestation where
  sourceId : Text
  value : Bytes
  height : UInt64
  timestamp : Int64
  custodySignature : Bytes
  ics23Proof : Bytes
  deriving DecidableEq, Repr

structure HashRoot where
  chainUid : Text
  algo : Text
  height : UInt64
  root : Bytes
  attestationCount : UInt32
  blockTime : Int64
  attestations : List OracleAttestation
  deriving DecidableEq, Repr

structure VoteExtensionHashData where
  chainUid : Text
  algo : Text
  root : Bytes
  foreignHeight : UInt64
  foreignBlockTime : Int64
  ics23Proof : Bytes
  attestations : List OracleAttestation
  deriving DecidableEq, Repr

/-- One vote of the extended commit. -/
structure ExtendedVoteInfo where
  address : Bytes
  power : Int64
  voteExtension : Bytes
  deriving DecidableEq, Repr

structure SudoOracleAttestation where
  sourceId : Text
  value : Bytes
  height : UInt64
  deriving DecidableEq, Repr

structure SudoPayload where
  chainUid : Text
  algo : Text
  height : UInt64
  root : Bytes
  attestationCount : UInt32
  blockTime : Int64
  oracleSources : List SudoOracleAttestation
  deriving DecidableEq, Repr

end Terpz.Hashmerchant
