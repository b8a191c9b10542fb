import Terpz.Lib.Checks
import Terpz.Leanval.Types.Inject
import Terpz.Leanval.Keeper.Bitfield

/-! Proof formats an LNPR row may carry: the Dummy statement, the fold over object roots,
and the valset AIR. External provers and the wasm host are parameters of a `Host`. -/
namespace Terpz.Leanval.Keeper
open Lib Lib.BigEndian

abbrev Hex := List Char

/-- lean-stwo-fold: three hex roots as arguments, the proof on stdin. -/
structure FoldBin where
  verify : Hex → Hex → Hex → Bytes → Except String Unit
  prove : Hex → Hex → Hex → Except String Bytes

/-- lean-valset-air: period, deposit index and balance byte as arguments. -/
structure ValsetAir where
  verify : UInt64 → UInt64 → UInt8 → Bytes → Except String Unit
  prove : UInt64 → UInt64 → UInt8 → Except String Bytes

/-- What surrounds a keeper: its configuration, the linked wasm host, and the programs on PATH. -/
structure Host where
  allowDummy : Bool
  verifier : Option (Bytes → Bytes → Except String Unit)
  /-- The module-owned verifier contract, when one is bound. -/
  sudoProofInstanceVerify : Option (Bytes → Bytes → Except String Unit)
  verifyStwoInProcess : Bytes → Bytes → Except String Unit
  foldBin : Option FoldBin
  /-- The valset program, or why neither it nor its crate was found. -/
  valsetAir : Except String ValsetAir

def errProof (s : String) : String := "leanval: " ++ s

/-- ASCII "DSTW". -/
def dummyMagic : Bytes := [0x44, 0x53, 0x54, 0x57]
/-- ASCII "STWO". -/
def stwoMagic : Bytes := [0x53, 0x54, 0x57, 0x4F]
/-- ASCII "FOLD". -/
def foldKind : Bytes := [0x46, 0x4F, 0x4C, 0x44]
/-- ASCII "c=3a+5b+7". -/
def costume : Bytes := [0x63, 0x3D, 0x33, 0x61, 0x2B, 0x35, 0x62, 0x2B, 0x37]

def containsBytes (b sub : Bytes) : Bool := b.tails.any (fun t => sub.isPrefixOf t)

/-- `b[from:to]`. -/
def slice (b : Bytes) (start stop : Nat) : Bytes := (b.drop start).take (stop - start)

def dummyProofLen : Nat := 18
def m31P : UInt32 := 2 ^ 31 - 1

def putLE32 (v : UInt32) : Bytes := (beBytes 4 v.toNat).reverse
def getLE32 (b : Bytes) : UInt32 := UInt32.ofNat (beNat b.reverse)

@[simp] theorem putLE32_length (v : UInt32) : (putLE32 v).length = 4 := by simp [putLE32]

@[simp] theorem getLE32_putLE32 (v : UInt32) : getLE32 (putLE32 v) = v := by
  have hlt := v.toNat_lt
  rw [getLE32, putLE32, List.reverse_reverse, beNat_beBytes, Nat.mod_eq_of_lt (by omega), UInt32.ofNat_toNat]

def dummyM31Hash (a b : UInt32) : UInt32 :=
  ((3 * a.toUInt64 + 5 * b.toUInt64 + 7) % m31P.toUInt64).toUInt32

def dummyStwoProve (a b : UInt32) : Bytes :=
  dummyMagic ++ [2, 5] ++ putLE32 a ++ putLE32 b ++ putLE32 (dummyM31Hash a b)

def mixBytes (mix : UInt32) (b : Bytes) : UInt32 :=
  b.zipIdx.foldl (fun m x => m ^^^ (x.1.toUInt32 <<< UInt32.ofNat (8 * (x.2 % 4)))) mix

def padRoots (roots : Bytes) : Bytes := padTo objectRootsSize roots

def dummySeedsBound (period : UInt64) (subject : Bytes) (weight : Int64) (roots : Bytes) : UInt32 × UInt32 :=
  let mix := mixBytes (mixBytes (mixBytes 0 (putI64 weight)) subject) (padRoots roots)
  ((period % m31P.toUInt64).toUInt32, mix % m31P)

def dummyStwoProveBoundRoots (period : UInt64) (subject : Bytes) (weight : Int64) (roots : Bytes) : Bytes :=
  let (a, b) := dummySeedsBound period subject weight roots
  dummyStwoProve a b

def instancesForRoots (period : UInt64) (subject : Bytes) (weight : Int64) (roots : Bytes) : Bytes :=
  putU64 period ++ putI64 weight ++ subject ++ padRoots roots

def verifyDummy (proof instances : Bytes) : Except String Unit := do
  failIf (proof.length > maxProofBytes) "leanval: proof too large"
  failIf (proof.length < dummyProofLen) "leanval: truncated DummyStwo"
  failIf (proof.take 4 ≠ dummyMagic) "leanval: bad DummyStwo magic"
  failIf (proof.getD 4 0 ≠ 2) ("leanval: wrong prover_id " ++ toString (proof.getD 4 0))
  failIf (proof.getD 5 0 ≠ 5) ("leanval: wrong curve_id " ++ toString (proof.getD 5 0))
  let a := getLE32 (slice proof 6 10)
  let b := getLE32 (slice proof 10 14)
  let c := getLE32 (slice proof 14 18)
  failIf (a ≥ m31P ∨ b ≥ m31P ∨ c ≥ m31P) "leanval: not in M31"
  failIf (dummyM31Hash a b ≠ c) "leanval: DummyStwo statement false"
  if instances.length ≥ 16 then
    let period := getU64 (instances.take 8)
    let weight := getI64 (slice instances 8 16)
    let rest := instances.drop 16
    let cut := if rest.length ≥ objectRootsSize then rest.length - objectRootsSize else rest.length
    failIf ((a, b) ≠ dummySeedsBound period (rest.take cut) weight (rest.drop cut))
      "leanval: DummyStwo instance bind failed (forged weight, period, or roots)"
  else pure ()

/-- A bound contract is asked first; otherwise the configured verifier. -/
def verifyProof (h : Host) (proof instances : Bytes) : Except String Unit :=
  match h.sudoProofInstanceVerify with
  | some contract => contract proof instances
  | none =>
    match h.verifier with
    | none => .error "leanval: no verifier"
    | some v => v proof instances

def hexEncode (b : Bytes) : Hex :=
  b.flatMap (fun x => [Nat.digitChar (x.toNat / 16), Nat.digitChar (x.toNat % 16)])

def fromHexChar (c : Char) : Option UInt8 :=
  if '0' ≤ c ∧ c ≤ '9' then some (UInt8.ofNat (c.toNat - 48))
  else if 'a' ≤ c ∧ c ≤ 'f' then some (UInt8.ofNat (c.toNat - 87))
  else if 'A' ≤ c ∧ c ≤ 'F' then some (UInt8.ofNat (c.toNat - 55))
  else none

def hexDecode : Hex → Option Bytes
  | [] => some []
  | [_] => none
  | a :: b :: rest => do
    let hi ← fromHexChar a
    let lo ← fromHexChar b
    let tail ← hexDecode rest
    pure ((hi <<< 4 ||| lo) :: tail)

def trimHexPrefix : Hex → Hex
  | '0' :: 'x' :: s => s
  | s => s

def isHexRoot (s : Hex) : Bool :=
  (trimHexPrefix s).length == 64 && (hexDecode (trimHexPrefix s)).isSome

def parseRootHex (s : Hex) : Bytes :=
  match hexDecode (trimHexPrefix s) with
  | some b => if b.length = 32 then b else List.replicate 32 0
  | none => List.replicate 32 0

def foldPairStrings (roots : Bytes) : List Hex :=
  let r := padRoots roots
  [hexEncode (r.take 32), hexEncode (slice r 32 64), hexEncode (slice r 64 96)]

def isFoldProof (proof : Bytes) : Bool :=
  decide (proof.length ≥ 10) && proof.take 4 == stwoMagic && slice proof 6 10 == foldKind

def foldProofFromLNPR (blob : LNPRBlob) : Option Bytes :=
  (blob.subjects.find? (fun s => isFoldProof s.proof)).map (·.proof)

def verifySameStatementFold (h : Host) (proof : Bytes) (pairs : List Hex) : Except String Unit := do
  failIf (containsBytes proof dummyMagic) "leanval: Dummy-N is not a Stwo aggregate"
  failIf (containsBytes proof costume) "leanval: 3a+5b+7 costume over subjects is not a fold"
  failIf (proof.length < 10 ∨ proof.take 4 ≠ stwoMagic) "leanval: fold proof must be STWO magic"
  failIf (proof.getD 4 0 ≠ 2 ∨ proof.getD 5 0 ≠ 5) "leanval: fold wants prover_id=2 curve_id=5"
  failIf (slice proof 6 10 ≠ foldKind) "leanval: fold kind missing"
  failIf (pairs.length < 1 ∨ !isHexRoot (pairs.getD 0 []))
    "leanval: fold PIs must be bitfield root hex, not Dummy pairs"
  let bound := decide (proof.length ≥ 10 + objectRootsSize)
  failIf (bound ∧ slice proof 10 42 ≠ parseRootHex (pairs.getD 0 []))
    "leanval: fold public inputs != bitfield root"
  failIf (bound ∧ pairs.length > 1 ∧ isHexRoot (pairs.getD 1 []) ∧
    slice proof 42 74 ≠ parseRootHex (pairs.getD 1 [])) "leanval: fold public inputs != deposit root"
  failIf (bound ∧ pairs.length > 2 ∧ isHexRoot (pairs.getD 2 []) ∧
    slice proof 74 106 ≠ parseRootHex (pairs.getD 2 [])) "leanval: fold public inputs != EB root"
  let inst := if bound then slice proof 10 (10 + objectRootsSize) else []
  match h.verifyStwoInProcess proof inst with
  | .ok _ => .ok ()
  | .error _ =>
    match h.foldBin with
    | none => .error "leanval: lean-stwo-fold not on PATH (not cargo)"
    | some bin =>
      match bin.verify (pairs.getD 0 []) (pairs.getD 1 ['0', '0']) (pairs.getD 2 ['0', '0']) proof with
      | .ok _ => .ok ()
      | .error e => .error ("leanval: fold verify: " ++ e)

def proveSameStatementFold (h : Host) (pairs : List Hex) : Except String Bytes := do
  match h.foldBin with
  | none => .error "leanval: lean-stwo-fold not on PATH (not cargo)"
  | some bin =>
    failIf (pairs.length < 1 ∨ !isHexRoot (pairs.getD 0 [])) "leanval: fold prove wants bitfield root hex"
    let zero := List.replicate 64 '0'
    let dep := if pairs.length > 1 ∧ isHexRoot (pairs.getD 1 []) then pairs.getD 1 [] else zero
    let eb := if pairs.length > 2 ∧ isHexRoot (pairs.getD 2 []) then pairs.getD 2 [] else zero
    match bin.prove (pairs.getD 0 []) dep eb with
    | .error e => .error ("leanval: fold prove: " ++ e)
    | .ok out =>
      failIf (containsBytes out dummyMagic) "leanval: fold prove emitted Dummy"
      failIf (out.length < 10 ∨ out.take 4 ≠ stwoMagic) "leanval: fold prove missing STWO"
      pure out

def valsetInstanceBytes (period index : UInt64) (eb : UInt8) : Bytes :=
  putU64 period ++ (putU64 index).drop 3 ++ [eb]

def proveValsetStwo (h : Host) (period index : UInt64) (eb : UInt8) : Except String Bytes := do
  failIf (index ≥ 2 ^ 40) "leanval: valset AIR deposit index exceeds 5 bytes"
  let air ← h.valsetAir
  match air.prove period index eb with
  | .error e => .error ("leanval: valset prove: " ++ e)
  | .ok out =>
    failIf (out.length < 4 ∨ out.take 4 ≠ stwoMagic) "leanval: valset prove did not emit STWO proof"
    pure out

def verifyValsetStwo (h : Host) (proof : Bytes) (period index : UInt64) (eb : UInt8) : Except String Unit := do
  failIf (proof.length < 4 ∨ proof.take 4 ≠ stwoMagic) "leanval: valset verify: not STWO"
  failIf (containsBytes proof dummyMagic) "leanval: valset verify: DummyStwo DSTW rejected"
  match h.verifyStwoInProcess proof (valsetInstanceBytes period index eb) with
  | .ok _ => .ok ()
  | .error _ =>
    failIf (index ≥ 2 ^ 40) "leanval: valset AIR deposit index exceeds 5 bytes"
    let air ← h.valsetAir
    match air.verify period index eb proof with
    | .ok _ => .ok ()
    | .error e => .error ("leanval: valset verify: " ++ e)

/-- The balance byte a row's weight claims. -/
def claimedEB (weight : Int64) : UInt8 :=
  if weight > 0 ∧ weight ≤ 255 then weight.toUInt64.toUInt8 else if weight > 255 then 255 else 0

def hasStwoMagic (proof : Bytes) : Bool := decide (proof.length ≥ 4) && proof.take 4 == stwoMagic

def verifySubjectProof (h : Host) (period index : UInt64) (s : SubjectProof) (roots : Bytes) :
    Except String Unit :=
  if hasStwoMagic s.proof then verifyValsetStwo h s.proof period index (claimedEB s.weight)
  else if !h.allowDummy then .error (errProof "STWO proof required (Dummy DSTW disabled)")
  else verifyProof h s.proof (instancesForRoots period s.subject s.weight roots)

/-- Proving and storing read the same byte off a weight. -/
theorem claimedEB_eq (w : Int64) : claimedEB w = ebFromWeight w := by
  unfold claimedEB ebFromWeight
  by_cases hp : w ≤ 0
  · have h0 : ¬ w > 0 := Int64.not_lt.mpr hp
    have h1 : ¬ w > 255 := fun h => h0 (Int64.lt_trans (by decide) h)
    simp [hp, h0, h1]
  · have h0 : w > 0 := Int64.not_le.mp hp
    by_cases hb : w > 255
    · simp [hp, hb, Int64.not_le.mpr hb]
    · simp [hp, h0, hb, Int64.not_lt.mp hb]

end Terpz.Leanval.Keeper
