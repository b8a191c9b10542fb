import Terpz.Lib.Ledger
import Terpz.Tokenfactory.Types

/-! What is assumed of the SDK's bank keeper: the operations that the module calls, on balances and supply. -/
namespace Terpz.Tokenfactory
open Lib

structure Bank where
  ledger : Ledger Bytes Text
  denomMetaData : Text → Option Metadata

/-- What a message finds beside the stores: the coins locked in accounts at the time of its block, and whether the
gas it still has is less than an amount. -/
structure Ctx where
  lockedCoins : Bytes → Text → Int
  outOfGas : UInt64 → Bool

/-- `math.Int` holds 256 bits; a larger sum panics. -/
def addAmount (a b : Int) : Except Err Int := do
  failIf (2 ^ 256 ≤ (a + b).natAbs) ⟨.panicked, text "Int overflow"⟩
  .ok (a + b)

namespace Bank
variable (b : Bank) (addr : Bytes)

def getBalance (denom : Text) : Int := b.ledger.balance addr denom

def setBalance (denom : Text) (amount : Int) : Bank :=
  { b with ledger := { b.ledger with
      balance := fun a d => if a = addr ∧ d = denom then amount else b.ledger.balance a d } }

def getSupply (denom : Text) : Int := b.ledger.supply denom

def setSupply (denom : Text) (amount : Int) : Bank :=
  { b with ledger := { b.ledger with supply := fun d => if d = denom then amount else b.ledger.supply d } }

def getDenomMetaData (denom : Text) : Option Metadata := b.denomMetaData denom

def setDenomMetaData (m : Metadata) : Bank :=
  { b with denomMetaData := fun d => if d = m.base then some m else b.denomMetaData d }

def addLoop : Bank → List Coin → Except Err Bank
  | b, [] => .ok b
  | b, c :: cs => do
    let amount ← addAmount (b.getBalance addr c.denom) c.amount
    addLoop (b.setBalance addr c.denom amount) cs

def addCoins (coins : List Coin) : Except Err Bank := do
  failIf (coinsValid coins = false) (.of .invalidCoins (coinsText coins))
  addLoop addr b coins

def subLoop (ctx : Ctx) : Bank → List Coin → Except Err Bank
  | b, [] => .ok b
  | b, c :: cs => do
    let balance := b.getBalance addr c.denom
    let spendable := balance - ctx.lockedCoins addr c.denom
    failIf (spendable < 0) (.of .insufficientFunds (text "locked amount exceeds account balance funds"))
    failIf (spendable < c.amount) (.of .insufficientFunds (text "spendable balance is smaller than " ++ c.toText))
    subLoop ctx (b.setBalance addr c.denom (balance - c.amount)) cs

def subUnlockedCoins (ctx : Ctx) (coins : List Coin) : Except Err Bank := do
  failIf (coinsValid coins = false) (.of .invalidCoins (coinsText coins))
  subLoop addr ctx b coins

def sendCoins (ctx : Ctx) (source target : Bytes) (coins : List Coin) : Except Err Bank := do
  let b ← b.subUnlockedCoins source ctx coins
  b.addCoins target coins

def mintLoop : Bank → List Coin → Except Err Bank
  | b, [] => .ok b
  | b, c :: cs => do
    let supply ← addAmount (b.getSupply c.denom) c.amount
    mintLoop (b.setSupply c.denom supply) cs

/-- The module account has the permission to mint. -/
def mintCoins (moduleAddress : Bytes) (coins : List Coin) : Except Err Bank := do
  let b ← b.addCoins moduleAddress coins
  b.mintLoop coins

def burnLoop : Bank → List Coin → Except Err Bank
  | b, [] => .ok b
  | b, c :: cs => do
    failIf (b.getSupply c.denom - c.amount < 0) ⟨.panicked, text "negative coin amount"⟩
    burnLoop (b.setSupply c.denom (b.getSupply c.denom - c.amount)) cs

/-- The module account has the permission to burn. -/
def burnCoins (ctx : Ctx) (moduleAddress : Bytes) (coins : List Coin) : Except Err Bank := do
  let b ← b.subUnlockedCoins moduleAddress ctx coins
  b.burnLoop coins

section Postings

/-- The bank after postings to its ledger. -/
def withLedger (l : Ledger Bytes Text) : Bank := { b with ledger := l }

variable {b addr} {b' : Bank} {ctx : Ctx}

private theorem addAmount_ok {a c sum : Int} (h : addAmount a c = .ok sum) : sum = a + c := by
  rw [addAmount, failIf_bind_eq_ok] at h
  exact (Except.ok.inj h.2).symm

variable (addr) in
private theorem setBalance_add (c : Coin) (b : Bank) :
    b.setBalance addr c.denom (b.getBalance addr c.denom + c.amount) =
      b.withLedger (b.ledger.post addr (amountOf [c])) := by
  simp only [setBalance, withLedger, getBalance, Ledger.post]
  congr
  funext a d
  by_cases ha : a = addr
  · by_cases hd : d = c.denom
    · simp [ha, hd, amountOf]
    · simp [ha, hd, amountOf, Ne.symm hd]
  · simp [ha]

private theorem setSupply_add (c : Coin) (b : Bank) :
    b.setSupply c.denom (b.getSupply c.denom + c.amount) = b.withLedger (b.ledger.issue (amountOf [c])) := by
  simp only [setSupply, withLedger, getSupply, Ledger.issue]
  congr
  funext d
  by_cases hd : d = c.denom
  · simp [hd, amountOf]
  · simp [hd, amountOf, Ne.symm hd]

private theorem amountOf_cons (c : Coin) (cs : List Coin) : amountOf (c :: cs) = amountOf [c] + amountOf cs := by
  funext d
  simp [amountOf]

private theorem neg_amountOf_nil : -amountOf [] = 0 := by
  funext d
  simp [amountOf]

private theorem amountOf_neg (c : Coin) : amountOf [⟨c.denom, -c.amount⟩] = -amountOf [c] := by
  funext d
  by_cases hd : c.denom = d <;> simp [amountOf, hd]

theorem addCoins_ok {coins : List Coin} (h : b.addCoins addr coins = .ok b') :
    b' = b.withLedger (b.ledger.post addr (amountOf coins)) := by
  rw [addCoins, failIf_bind_eq_ok] at h
  obtain ⟨-, h⟩ := h
  induction coins generalizing b with
  | nil =>
    exact (Except.ok.inj h).symm.trans (congrArg b.withLedger (Ledger.post_zero ..).symm)
  | cons c cs ih =>
    obtain ⟨amount, hamount, h⟩ := bind_eq_ok.mp h
    rw [addAmount_ok hamount, setBalance_add] at h
    rw [ih h, amountOf_cons c cs, ← Ledger.post_post]
    rfl

theorem subUnlockedCoins_ok {coins : List Coin} (h : b.subUnlockedCoins addr ctx coins = .ok b') :
    b' = b.withLedger (b.ledger.post addr (-amountOf coins)) := by
  rw [subUnlockedCoins, failIf_bind_eq_ok] at h
  obtain ⟨-, h⟩ := h
  induction coins generalizing b with
  | nil =>
    rw [neg_amountOf_nil, Ledger.post_zero]
    exact (Except.ok.inj h).symm
  | cons c cs ih =>
    simp only [subLoop, failIf_bind_eq_ok] at h
    obtain ⟨-, -, h⟩ := h
    have hset := setBalance_add addr ⟨c.denom, -c.amount⟩ b
    rw [← Int.sub_eq_add_neg, amountOf_neg] at hset
    rw [hset] at h
    rw [ih h, amountOf_cons c cs, neg_add, ← Ledger.post_post]
    rfl

theorem sendCoins_ok {source target : Bytes} {coins : List Coin} (h : b.sendCoins ctx source target coins = .ok b') :
    b' = b.withLedger ((b.ledger.post source (-amountOf coins)).post target (amountOf coins)) := by
  obtain ⟨b₁, hsub, hadd⟩ := bind_eq_ok.mp h
  rw [addCoins_ok hadd, subUnlockedCoins_ok hsub]
  rfl

private theorem mintLoop_ok {coins : List Coin} (h : b.mintLoop coins = .ok b') :
    b' = b.withLedger (b.ledger.issue (amountOf coins)) := by
  induction coins generalizing b with
  | nil =>
    exact (Except.ok.inj h).symm.trans (congrArg b.withLedger (Ledger.issue_zero ..).symm)
  | cons c cs ih =>
    obtain ⟨supply, hsupply, h⟩ := bind_eq_ok.mp h
    rw [addAmount_ok hsupply, setSupply_add] at h
    rw [ih h, amountOf_cons c cs, ← Ledger.issue_issue]
    rfl

theorem mintCoins_ok {coins : List Coin} (h : b.mintCoins addr coins = .ok b') :
    b' = b.withLedger ((b.ledger.post addr (amountOf coins)).issue (amountOf coins)) := by
  obtain ⟨b₁, hadd, hmint⟩ := bind_eq_ok.mp h
  rw [mintLoop_ok hmint, addCoins_ok hadd]
  rfl

private theorem burnLoop_ok {coins : List Coin} (h : b.burnLoop coins = .ok b') :
    b' = b.withLedger (b.ledger.issue (-amountOf coins)) := by
  induction coins generalizing b with
  | nil =>
    rw [neg_amountOf_nil, Ledger.issue_zero]
    exact (Except.ok.inj h).symm
  | cons c cs ih =>
    rw [burnLoop, failIf_bind_eq_ok] at h
    obtain ⟨-, h⟩ := h
    have hset := setSupply_add ⟨c.denom, -c.amount⟩ b
    rw [← Int.sub_eq_add_neg, amountOf_neg] at hset
    rw [hset] at h
    rw [ih h, amountOf_cons c cs, neg_add, ← Ledger.issue_issue]
    rfl

theorem burnCoins_ok {coins : List Coin} (h : b.burnCoins ctx addr coins = .ok b') :
    b' = b.withLedger ((b.ledger.post addr (-amountOf coins)).issue (-amountOf coins)) := by
  obtain ⟨b₁, hsub, hburn⟩ := bind_eq_ok.mp h
  rw [burnLoop_ok hburn, subUnlockedCoins_ok hsub]
  rfl

end Postings
end Bank
end Terpz.Tokenfactory
