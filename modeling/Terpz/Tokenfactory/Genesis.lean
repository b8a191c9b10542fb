import Terpz.Tokenfactory.MsgServer

/-! The genesis file of the module. Errors are panics here. -/
namespace Terpz.Tokenfactory
open Lib PrefixStore

structure GenesisDenom where
  denom : Text
  authorityMetadata : DenomAuthorityMetadata
  deriving DecidableEq, Repr

structure GenesisState where
  params : Params
  factoryDenoms : List GenesisDenom
  deriving DecidableEq, Repr

namespace Keeper
variable (k : Keeper)

/-- A denomination is created again for the creator its text names, and then gets the admin of the file. -/
def initDenom (s : State) (genDenom : GenesisDenom) : Except Err State := do
  let (creator, _) ← k.deconstructDenom genDenom.denom
  let s ← k.createDenomAfterValidation s creator genDenom.denom
  k.setAuthorityMetadata s genDenom.denom genDenom.authorityMetadata

def initDenoms : State → List GenesisDenom → Except Err State
  | s, [] => .ok s
  | s, genDenom :: genDenoms => do
    let s ← k.initDenom s genDenom
    initDenoms s genDenoms

def initGenesis (s : State) (genState : GenesisState) : Except Err State := do
  let s ← setParams s genState.params
  k.initDenoms s genState.factoryDenoms

def exportDenoms (s : State) : List Text → Except Err (List GenesisDenom)
  | [] => .ok []
  | denom :: denoms => do
    let authorityMetadata ← k.getAuthorityMetadata s denom
    let genDenoms ← exportDenoms s denoms
    .ok (⟨denom, authorityMetadata⟩ :: genDenoms)

def exportGenesis (s : State) : Except Err GenesisState := do
  let genDenoms ← k.exportDenoms s (getAllDenoms s)
  let params ← getParams s
  .ok ⟨params, genDenoms⟩

/-- A chain that starts from a bank and a genesis file, with a store of its own. -/
def start (bank : Bank) (genState : GenesisState) : Except Err State := k.initGenesis ⟨bank, ∅, none⟩ genState

/-- The bank is restored as it is and the module from its own file. -/
def reimport (s : State) : Except Err State := do
  let genState ← k.exportGenesis s
  k.start s.bank genState

end Keeper
end Terpz.Tokenfactory
