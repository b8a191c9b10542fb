import Terpz.Lib.Sha256
import Terpz.Leanval.Types.Keys

/-! Append-only binary Merkle trees over deposit and effective-balance leaves.
The leaf position is the deposit index. -/
namespace Terpz.Leanval.Keeper
open Lib

def hashLeaf (data : Bytes) : Bytes := sha256 data

def hashNode (left right : Bytes) : Bytes := sha256 (left ++ right)

/-- One level up; an odd last node is paired with itself. -/
def merkleLayer : List Bytes → List Bytes
  | [] => []
  | [a] => [hashNode a a]
  | a :: b :: rest => hashNode a b :: merkleLayer rest

/-- The levels shrink strictly, so the number of leaves is enough fuel. -/
def merkleFold : Nat → List Bytes → Bytes
  | 0, layer => layer.headD []
  | fuel + 1, layer => if layer.length > 1 then merkleFold fuel (merkleLayer layer) else layer.headD []

def merkleRoot (leaves : List Bytes) : Bytes :=
  if leaves.length = 0 then hashLeaf [] else merkleFold leaves.length leaves

def depositLeaf (subject : Bytes) (idx : UInt32) : Bytes := hashLeaf (subject ++ putU32 idx)

def ebLeaf (eb : UInt8) : Bytes := hashLeaf [eb]

end Terpz.Leanval.Keeper
