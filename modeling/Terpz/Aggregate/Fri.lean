import Terpz.Lib.Sha256
import Terpz.Lib.PerfectTree
import Terpz.Aggregate.M31

/-! The folding proof over sixteen evaluations: the composed codeword, its Merkle layers, the
prover and the verifier. `none` stands for a panic: an assertion, an index out of range or a
division by zero. -/
namespace Terpz.Aggregate
open Lib Lib.BigEndian

/-- A 32-byte array. -/
abbrev Bytes32 := { b : Bytes // b.length = 32 }

def zero32 : Bytes32 := ⟨List.replicate 32 0, List.length_replicate⟩

def sha (msg : Bytes) : Bytes32 := ⟨sha256 msg, sha256_length msg⟩

def ascii (s : String) : Bytes := s.toList.map (fun c => UInt8.ofNat c.toNat)

def leNat (b : Bytes) : Nat := beNat b.reverse

def leBytes (n v : Nat) : Bytes := (beBytes n v).reverse

def domain : Nat := 16

section Compose
open M31

def pack4 (b : Bytes) : UInt32 :=
  let x := (b.take 4).zipIdx.foldl (fun x vi => x ||| (vi.1.toUInt32 <<< UInt32.ofNat (8 * vi.2))) (0 : UInt32)
  red x.toUInt64

def leafCoeffs (period : UInt64) (objectRoot bitfield : Bytes32) (idx : Nat) : List UInt32 :=
  [red (period + UInt64.ofNat idx <<< 8),
   pack4 (bitfield.val.take 4),
   pack4 (objectRoot.val.take 4),
   pack4 ((bitfield.val.drop 4).take 4) ^^^ pack4 ((objectRoot.val.drop 4).take 4)]

/-- Period, bitfield and object root. -/
abbrev LeafTuple := UInt64 × Bytes32 × Bytes32

/-- The coefficients of a leaf beside its position in the list. -/
def tupleCoeffs (leaf : LeafTuple × Nat) : List UInt32 := leafCoeffs leaf.1.1 leaf.1.2.2 leaf.1.2.1 leaf.2

/-- One leaf's polynomial at `x`, with the running power of `x` beside the sum. -/
def leafEval (c : List UInt32) (x : F2) : F2 :=
  (c.foldl (fun s ci => (s.1.add (s.2.scale ci), s.2.mul x)) (F2.zero, F2.one)).1

def addLeaf (ev : List F2) (leaf : LeafTuple × Nat) : List F2 :=
  ev.mapIdx (fun k e => e.add (leafEval (tupleCoeffs leaf) (omega16.pow (UInt32.ofNat k))))

def composeEvals (leaves : List LeafTuple) : List F2 :=
  leaves.zipIdx.foldl addLeaf (List.replicate domain F2.zero)

def composedCoeffs (leaves : List LeafTuple) : List UInt32 :=
  leaves.zipIdx.foldl (fun acc leaf => List.zipWith add acc (tupleCoeffs leaf)) [0, 0, 0, 0]

end Compose

section Merkle

def nodeInput (l r : Bytes32) : Bytes := ascii "stwo-fri-merkle" ++ l.val ++ r.val

def nodeHash (l r : Bytes32) : Bytes32 := sha (nodeInput l r)

def feltInput (v : F2) : Bytes := ascii "stwo-fri-leaf" ++ leBytes 4 v.a.toNat ++ leBytes 4 v.b.toNat

def feltBytes (v : F2) : Bytes32 := sha (feltInput v)

def isPowerOfTwo (n : Nat) : Bool := n != 0 && n &&& (n - 1) == 0

/-- The next power of two is at most twice the length, so the length is fuel enough. -/
def padLevel : Nat → List Bytes32 → List Bytes32
  | 0, level => level
  | fuel + 1, level => if isPowerOfTwo level.length then level else padLevel fuel (level ++ [zero32])

/-- The root and the levels below it. -/
def merkleRoot (vals : List F2) : Bytes32 × List (List Bytes32) :=
  let level := vals.map feltBytes
  if level.length = 0 then (zero32, [])
  else
    let level := padLevel level.length level
    let layers := PerfectTree.layers nodeHash level.length level
    (((layers.getLast?).bind List.head?).getD zero32, layers)

def merkleOpen (layers : List (List Bytes32)) (i : Nat) : Option (List Bytes32) :=
  if layers.length = 0 then none else PerfectTree.siblings layers.dropLast i

def merkleCheck (leaf : F2) (i : Nat) (path : List Bytes32) (root : Bytes32) : Bool :=
  PerfectTree.climb nodeHash (feltBytes leaf) i path == root

def merkleCommit (evals : List F2) : Bytes32 := (merkleRoot evals).1

end Merkle

section Fold

/-- Trailing zeros of a machine word of `fuel` bits. -/
def trailingZeros : Nat → Nat → Nat
  | 0, _ => 0
  | fuel + 1, n => if n % 2 = 0 then trailingZeros fuel (n / 2) + 1 else 0

/-- The even part plus `beta` times the odd part, from the values at `x` and `-x`. -/
def foldAt (x beta v0 v1 : F2) : F2 :=
  let fe := (v0.add v1).scale (M31.inv 2)
  let fo := ((v0.sub v1).mul x.inv).scale (M31.inv 2)
  fe.add (beta.mul fo)

def foldLayer (evals : List F2) (beta : F2) : List F2 :=
  let n := evals.length
  let half := n / 2
  let step := 1 <<< trailingZeros 64 (domain / n)
  (List.range half).map (fun i =>
    foldAt (omega16.pow (UInt32.ofNat (step * i))) beta (evals.getD i F2.zero) (evals.getD (i + half) F2.zero))

def fsBeta (roots : List Bytes32) (layer : Nat) : F2 :=
  let d := sha (ascii "stwo-fri-beta" ++ [UInt8.ofNat layer] ++ (roots.map Subtype.val).flatten)
  F2.new (UInt32.ofNat (leNat (d.val.take 4)) % M31.P) (UInt32.ofNat (leNat ((d.val.drop 4).take 4)) % M31.P)

/-- Sixteen indices at most can be cut from one digest. -/
def fsQueries (root0 : Bytes32) (nq : Nat) : List Nat :=
  let d := sha (ascii "stwo-fri-query" ++ root0.val)
  (List.range nq).map (fun i => leNat [d.val.getD (i * 2) 0, d.val.getD (i * 2 + 1) 0] % domain)

end Fold

/-- Two opened values with their paths. -/
abbrev FriLayer := F2 × F2 × List Bytes32 × List Bytes32

structure FriQuery where
  index : Nat
  layers : List FriLayer

structure FriProof where
  layerRoots : List Bytes32
  queries : List FriQuery
  finalValue : F2

section Prove

/-- The codewords after `cur`, each folded with the challenge of the roots so far. -/
def foldLoop : Nat → List Bytes32 → List F2 → Nat → List (List F2)
  | 0, _, _, _ => []
  | fuel + 1, roots, cur, li =>
    if cur.length > 1 then
      let next := foldLayer cur (fsBeta roots li)
      next :: foldLoop fuel (roots ++ [merkleCommit next]) next (li + 1)
    else []

def queryLayers : List (List F2) → Nat → Option (List FriLayer)
  | [], _ => some []
  | ev :: rest, idx =>
    if ev.length = 1 then some []
    else if ev.length = 0 then none
    else do
      let half := ev.length / 2
      let i0 := idx % ev.length
      let i1 := (i0 + half) % ev.length
      let path0 ← merkleOpen (merkleRoot ev).2 i0
      let path1 ← merkleOpen (merkleRoot ev).2 i1
      let v0 ← ev[i0]?
      let v1 ← ev[i1]?
      let ql ← queryLayers rest (idx % max half 1)
      some ((v0, v1, path0, path1) :: ql)

def queryAt (layersEv : List (List F2)) (qi : Nat) : Option FriQuery := (queryLayers layersEv qi).map (FriQuery.mk qi)

def prove (evals : List F2) : Option FriProof :=
  if evals.length ≠ domain then none
  else do
    let layersEv := evals :: foldLoop evals.length [merkleCommit evals] evals 0
    let queries ← (fsQueries (merkleCommit evals) 4).mapM (queryAt layersEv)
    let finalValue ← layersEv.getLast?.bind List.head?
    some ⟨layersEv.map merkleCommit, queries, finalValue⟩

end Prove

section Verify
variable (layerRoots : List Bytes32) (finalValue : F2)

/-- The layers of one query; only the last fold is compared with a value. -/
def verifyLayers : List FriLayer → Nat → Nat → Nat → Option Bool
  | [], _, _, _ => some true
  | (v0, v1, p0, p1) :: rest, lvl, idx, n =>
    match layerRoots[lvl]? with
    | none => some false
    | some root =>
      if n = 0 then none
      else
        let i0 := idx % n
        let i1 := (i0 + n / 2) % n
        if !merkleCheck v0 i0 p0 root then some false
        else if !merkleCheck v1 i1 p1 root then some false
        else
          let beta := fsBeta (layerRoots.take (lvl + 1)) lvl
          let x := omega16.pow (UInt32.ofNat (domain / n * (i0 % max (n / 2) 1)))
          if n / 2 = 1 ∧ foldAt x beta v0 v1 ≠ finalValue then some false
          else verifyLayers rest (lvl + 1) (idx % max (n / 2) 1) (n / 2)

def verifyQueries : List FriQuery → List Nat → Option Bool
  | [], _ => some true
  | _ :: _, [] => none
  | q :: qs, expect :: es =>
    if q.index ≠ expect then some false
    else
      match verifyLayers layerRoots finalValue q.layers 0 q.index domain with
      | some true => verifyQueries qs es
      | stop => stop

end Verify

def verify (evals : List F2) (proof : FriProof) : Option Bool :=
  match proof.layerRoots with
  | [] => some false
  | root0 :: _ =>
    if evals.length ≠ domain then some false
    else if merkleCommit evals ≠ root0 then some false
    else if proof.queries.length ≠ 4 then some false
    else verifyQueries proof.layerRoots proof.finalValue proof.queries (fsQueries root0 4)

end Terpz.Aggregate
