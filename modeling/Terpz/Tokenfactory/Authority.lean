import Terpz.Lib.Bech32
import Terpz.Lib.Protobuf
import Terpz.Tokenfactory.MsgServer

/-! Who can change what: the supply of a denomination and its admin, along every run of messages. -/
namespace Terpz.Tokenfactory
open Lib PrefixStore

section Keys

private theorem authorityKey_eq (denom : Text) :
    authorityKey denom = text "denoms" ++ keySeparator ++ (denom ++ (keySeparator ++ denomAuthorityMetadataKey)) := by
  simp [authorityKey, denomPrefix, List.intercalate]

theorem creatorKey_eq (creator denom : Text) :
    creatorKey creator denom = text "creator" ++ keySeparator ++ (creator ++ (keySeparator ++ denom)) := by
  simp [creatorKey, creatorPrefix, List.intercalate]

theorem authorityKey_inj {denom denom' : Text} (h : authorityKey denom = authorityKey denom') : denom = denom' := by
  rw [authorityKey_eq, authorityKey_eq] at h
  exact List.append_cancel_right (List.append_cancel_left h)

theorem creator_append_ne_authorityKey (rest : Bytes) (denom : Text) : text "creator" ++ rest ≠ authorityKey denom := by
  intro h
  rw [authorityKey_eq] at h
  have hhead := congrArg (List.take 1) h
  rw [List.append_assoc, List.take_append_of_le_length (by decide +kernel),
    List.take_append_of_le_length (by decide +kernel)] at hhead
  revert hhead
  decide +kernel

theorem creatorKey_ne_authorityKey (creator denom denom' : Text) : creatorKey creator denom ≠ authorityKey denom' := by
  rw [creatorKey_eq, List.append_assoc]
  exact creator_append_ne_authorityKey _ denom'

end Keys

def State.supply (s : State) (denom : Text) : Int := s.bank.ledger.supply denom

def State.balance (s : State) (addr : Bytes) (denom : Text) : Int := s.bank.ledger.balance addr denom

/-- A denomination exists when the bank describes it. -/
def State.Created (s : State) (denom : Text) : Prop := s.bank.denomMetaData denom ≠ none

namespace Keeper
variable (k : Keeper)

/-- The delivery is a creation of the denomination and succeeds. -/
def Creates (s : State) (d : Delivery) (denom : Text) : Prop :=
  ∃ m s', d.msg = .createDenom m ∧ k.createDenomMsg d.ctx s m = .ok (s', denom)

/-- What one message may do to supply, module account and admins. -/
structure Governed (s : State) (d : Delivery) (s' : State) : Prop where
  supply : s'.supply = s.supply ∨
    (∃ m, d.msg = .mint m ∧ k.IsAdmin s m.amount.denom m.sender ∧
      ∀ denom, s'.supply denom = s.supply denom + if denom = m.amount.denom then m.amount.amount else 0) ∨
    ∃ m, d.msg = .burn m ∧ k.IsAdmin s m.amount.denom m.sender ∧
      ∀ denom, s'.supply denom = s.supply denom - if denom = m.amount.denom then m.amount.amount else 0
  moduleBalance : (∃ m, d.msg = .mint m) ∨ (∃ m, d.msg = .burn m) →
    s'.balance k.moduleAddress = s.balance k.moduleAddress
  admin : ∀ denom, s.Created denom → k.getAuthorityMetadata s' denom = k.getAuthorityMetadata s denom ∨
    ∃ m, d.msg = .changeAdmin m ∧ m.denom = denom ∧ k.IsAdmin s denom m.sender ∧ k.IsAdmin s' denom m.newAdmin

variable {k} {s s' : State} {d : Delivery} {denom : Text}

/-- The admin of every denomination after one was written. -/
theorem getAuthorityMetadata_set {m : DenomAuthorityMetadata}
    (h : s'.store = s.store.set (authorityKey denom) (k.marshal m)) (denom' : Text) :
    k.getAuthorityMetadata s' denom' = if denom = denom' then .ok m else k.getAuthorityMetadata s denom' := by
  rw [getAuthorityMetadata, h, get_set]
  by_cases hd : denom = denom'
  · rw [if_pos hd, if_pos (by rw [hd]), k.unmarshal_marshal]
  · rw [if_neg hd, if_neg (fun hk => hd (authorityKey_inj hk)), getAuthorityMetadata]

/-- The index of creators holds no admins. -/
theorem getAuthorityMetadata_index {creator value : Text}
    (h : s'.store = s.store.set (creatorKey creator denom) value) (denom' : Text) :
    k.getAuthorityMetadata s' denom' = k.getAuthorityMetadata s denom' := by
  rw [getAuthorityMetadata, h, get_set, if_neg (creatorKey_ne_authorityKey creator denom denom'), getAuthorityMetadata]

theorem getAuthorityMetadata_create {creator : Text} (h : s'.store =
    (s.store.set (authorityKey denom) (k.marshal ⟨creator⟩)).set (creatorKey creator denom) denom) (denom' : Text) :
    k.getAuthorityMetadata s' denom' = if denom = denom' then .ok ⟨creator⟩ else k.getAuthorityMetadata s denom' := by
  let named := { s with store := s.store.set (authorityKey denom) (k.marshal ⟨creator⟩) }
  have hnamed : named.store = s.store.set (authorityKey denom) (k.marshal ⟨creator⟩) := rfl
  rw [getAuthorityMetadata_index (s := named) h, getAuthorityMetadata_set hnamed]

private theorem amountOf_single (c : Coin) (denom : Text) :
    amountOf [c] denom = if denom = c.denom then c.amount else 0 := by
  simp [amountOf, eq_comm]

variable (k) in
/-- A message that leaves bank and admins alone is governed. -/
private theorem governed_of_frame (hledger : s'.bank.ledger = s.bank.ledger)
    (hadmin : ∀ denom, s.Created denom → k.getAuthorityMetadata s' denom = k.getAuthorityMetadata s denom) :
    k.Governed s d s' where
  supply := .inl (by unfold State.supply; rw [hledger])
  moduleBalance _ := by
    unfold State.balance
    rw [hledger]
  admin denom hd := .inl (hadmin denom hd)

theorem governed_createDenom {m : MsgCreateDenom} {ctx : Ctx} (h : k.createDenomMsg ctx s m = .ok (s', denom)) :
    k.Governed s ⟨ctx, .createDenom m⟩ s' := by
  obtain ⟨-, -, hnew, l, hl, rfl⟩ := createDenomMsg_ok h
  refine ⟨.inl hl, ?_, ?_⟩
  · rintro (⟨_, hm⟩ | ⟨_, hm⟩) <;> cases hm
  · -- the denomination created now is not among those that existed
    intro denom' hd
    have hne : denom ≠ denom' := by
      rintro rfl
      exact hd hnew
    exact .inl ((getAuthorityMetadata_create rfl denom').trans (if_neg hne))

theorem governed_mint {m : MsgMint} {ctx : Ctx} (hblocked : k.blockedAddr k.moduleAddress = true)
    (h : k.mint ctx s m = .ok s') : k.Governed s ⟨ctx, .mint m⟩ s' := by
  obtain ⟨hadmin, addr, hfree, rfl⟩ := mint_ok h
  refine ⟨.inr (.inl ⟨m, rfl, hadmin, fun denom => ?_⟩), fun _ => ?_, fun denom _ => .inl rfl⟩
  · exact congrArg (s.supply denom + ·) (amountOf_single m.amount denom)
  · refine Ledger.post_balance_of_ne _ _ ?_
    rintro rfl
    rw [hblocked] at hfree
    cases hfree

theorem governed_burn {m : MsgBurn} {ctx : Ctx} (hblocked : k.blockedAddr k.moduleAddress = true)
    (h : k.burn ctx s m = .ok s') : k.Governed s ⟨ctx, .burn m⟩ s' := by
  obtain ⟨hadmin, addr, hfree, rfl⟩ := burn_ok h
  refine ⟨.inr (.inr ⟨m, rfl, hadmin, fun denom => ?_⟩), fun _ => ?_, fun denom _ => .inl rfl⟩
  · exact congrArg (fun n : Int => s.supply denom + -n) (amountOf_single m.amount denom)
  · refine Ledger.post_balance_of_ne _ _ ?_
    rintro rfl
    rw [hblocked] at hfree
    cases hfree

theorem governed_forceTransfer {m : MsgForceTransfer} {ctx : Ctx} (h : k.forceTransferMsg ctx s m = .ok s') :
    k.Governed s ⟨ctx, .forceTransfer m⟩ s' := by
  obtain ⟨source, target, -, -, rfl⟩ := forceTransferMsg_ok h
  refine ⟨.inl rfl, ?_, fun denom _ => .inl rfl⟩
  rintro (⟨_, hm⟩ | ⟨_, hm⟩) <;> cases hm

theorem governed_changeAdmin {m : MsgChangeAdmin} {ctx : Ctx} (h : k.changeAdmin s m = .ok s') :
    k.Governed s ⟨ctx, .changeAdmin m⟩ s' := by
  obtain ⟨hadmin, -, rfl⟩ := changeAdmin_ok h
  refine ⟨.inl rfl, ?_, fun denom _ => ?_⟩
  · rintro (⟨_, hm⟩ | ⟨_, hm⟩) <;> cases hm
  · by_cases hd : m.denom = denom
    · subst hd
      exact .inr ⟨m, rfl, rfl, hadmin, (getAuthorityMetadata_set rfl m.denom).trans (if_pos rfl)⟩
    · exact .inl ((getAuthorityMetadata_set rfl denom).trans (if_neg hd))

theorem governed_deliver (hblocked : k.blockedAddr k.moduleAddress = true) (s : State) (d : Delivery) :
    k.Governed s d (k.deliver s d) := by
  rcases deliver_cases s d with hsame | hrun
  · rw [hsame]
    exact governed_of_frame k rfl (fun _ _ => rfl)
  · obtain ⟨ctx, msg⟩ := d
    cases msg with
    | createDenom m =>
      obtain ⟨⟨_, denom⟩, hcreate, hs⟩ := map_eq_ok.mp hrun
      rw [← hs]
      exact governed_createDenom hcreate
    | mint m => exact governed_mint hblocked hrun
    | burn m => exact governed_burn hblocked hrun
    | forceTransfer m => exact governed_forceTransfer hrun
    | changeAdmin m => exact governed_changeAdmin hrun
    | setDenomMetadata m =>
      rw [(setDenomMetadata_ok hrun).2]
      exact governed_of_frame k rfl (fun _ _ => rfl)
    | updateParams m =>
      rw [(updateParams_ok hrun).2]
      exact governed_of_frame k rfl (fun _ _ => rfl)

theorem created_setDenomMetaData {b : Bank} (h : b.denomMetaData denom ≠ none) (m : Metadata) :
    (b.setDenomMetaData m).denomMetaData denom ≠ none := by
  simp only [Bank.setDenomMetaData]
  split
  · exact Option.some_ne_none m
  · exact h

/-- No message takes the description of a denomination away. -/
theorem created_deliver (h : s.Created denom) (d : Delivery) : (k.deliver s d).Created denom := by
  rcases deliver_cases s d with hsame | hrun
  · rwa [hsame]
  · obtain ⟨ctx, msg⟩ := d
    cases msg with
    | createDenom m =>
      obtain ⟨⟨_, _⟩, hcreate, hs⟩ := map_eq_ok.mp hrun
      obtain ⟨-, -, -, l, -, rfl⟩ := createDenomMsg_ok hcreate
      rw [← hs]
      exact created_setDenomMetaData h _
    | mint m =>
      obtain ⟨-, _, -, hs⟩ := mint_ok hrun
      rwa [hs]
    | burn m =>
      obtain ⟨-, _, -, hs⟩ := burn_ok hrun
      rwa [hs]
    | forceTransfer m =>
      obtain ⟨_, _, -, -, hs⟩ := forceTransferMsg_ok hrun
      rwa [hs]
    | changeAdmin m =>
      rw [(changeAdmin_ok hrun).2.2]
      exact h
    | setDenomMetadata m =>
      rw [(setDenomMetadata_ok hrun).2]
      exact created_setDenomMetaData h _
    | updateParams m =>
      rw [(updateParams_ok hrun).2]
      exact h

theorem not_created_of_creates (h : k.Creates s d denom) : ¬ s.Created denom := by
  obtain ⟨m, s', -, hcreate⟩ := h
  exact not_not.mpr (createDenomMsg_ok hcreate).2.2.1

theorem created_of_creates (h : k.Creates s d denom) : (k.deliver s d).Created denom := by
  obtain ⟨m, s', hmsg, hcreate⟩ := h
  have hrun : k.handle d.ctx s d.msg = .ok s' := by
    rw [hmsg, handle, hcreate]
    rfl
  obtain ⟨-, -, -, l, -, rfl⟩ := createDenomMsg_ok hcreate
  rw [deliver, hrun]
  simp [State.Created, Bank.setDenomMetaData, denomMetaData]

/-- A denomination whose admin was given up, with the supply it has then. -/
structure Renounced (k : Keeper) (denom : Text) (supply : Int) (s : State) : Prop where
  created : s.Created denom
  admin : k.IsAdmin s denom []
  supply_eq : s.supply denom = supply

theorem Renounced.step (hblocked : k.blockedAddr k.moduleAddress = true) {supply : Int} (h : k.Renounced denom supply s)
    (hsender : d.msg.sender ≠ []) : k.Renounced denom supply (k.deliver s d) := by
  -- whoever is admin now has the empty name, which no sender has
  have hnobody : ∀ sender, k.IsAdmin s denom sender → sender = [] := by
    intro sender hsame
    rw [IsAdmin, h.admin] at hsame
    exact (congrArg DenomAuthorityMetadata.admin (Except.ok.inj hsame)).symm
  have hgov := governed_deliver hblocked s d
  refine ⟨created_deliver h.created d, ?_, ?_⟩
  · rcases hgov.admin denom h.created with hsame | ⟨m, hmsg, -, hadmin, -⟩
    · exact hsame.trans h.admin
    · rw [hmsg] at hsender
      exact absurd (hnobody _ hadmin) hsender
  · rw [← h.supply_eq]
    rcases hgov.supply with hsame | ⟨m, hmsg, hadmin, hsupply⟩ | ⟨m, hmsg, hadmin, hsupply⟩
    · rw [hsame]
    · have hne : denom ≠ m.amount.denom := by
        rintro rfl
        rw [hmsg] at hsender
        exact hsender (hnobody _ hadmin)
      rw [hsupply, if_neg hne, add_zero]
    · have hne : denom ≠ m.amount.denom := by
        rintro rfl
        rw [hmsg] at hsender
        exact hsender (hnobody _ hadmin)
      rw [hsupply, if_neg hne, sub_zero]

end Keeper

open Keeper in
/-- In every run of messages with named senders: supply moves only in a mint or burn by the admin of that moment and
by the stated amount, mints and burns leave the module account as it is, the admin of an existing denomination changes
only when the admin changes it, no denomination is created twice, and one without an admin keeps its supply and stays
without an admin. -/
theorem factory_supply_belongs_to_admin (k : Keeper) (hblocked : k.blockedAddr k.moduleAddress = true) (s : State)
    (ds : List Delivery) (hsenders : ∀ d ∈ ds, d.msg.sender ≠ []) :
    (∀ before d after, ds = before ++ d :: after →
      k.Governed (run k.deliver s before) d (run k.deliver s (before ++ [d]))) ∧
    (∀ before d between d' after, ds = before ++ d :: (between ++ d' :: after) → ∀ denom,
      k.Creates (run k.deliver s before) d denom → ¬ k.Creates (run k.deliver s (before ++ d :: between)) d' denom) ∧
    ∀ before after, ds = before ++ after → ∀ denom, (run k.deliver s before).Created denom →
      k.IsAdmin (run k.deliver s before) denom [] →
      k.IsAdmin (run k.deliver s ds) denom [] ∧
        (run k.deliver s ds).supply denom = (run k.deliver s before).supply denom := by
  refine ⟨?_, ?_, ?_⟩
  · rintro before d after -
    rw [run_append]
    exact governed_deliver hblocked _ d
  · rintro before d between d' after - denom hcreate hagain
    refine not_created_of_creates hagain ?_
    rw [run_append, run_cons]
    exact Along.invariant (I := fun t : State => t.Created denom) (C := fun _ _ => True)
      (fun t d ht _ => created_deliver ht d) (created_of_creates hcreate)
      (Along.of_forall (fun _ _ => trivial) _ between)
  · rintro before after rfl denom hcreated hadmin
    have hnamed : Along k.deliver (fun _ d => d.msg.sender ≠ []) (run k.deliver s before) after :=
      Along.of_forall_mem (fun d hd _ => hsenders d (List.mem_append_right _ hd)) _
    have hend := Along.invariant (I := k.Renounced denom _) (fun t d ht hd => ht.step hblocked hd)
      ⟨hcreated, hadmin, rfl⟩ hnamed
    rw [run_append]
    exact ⟨hend.admin, hend.supply_eq⟩

/-! Two users, and the accounts of the distribution and tokenfactory modules. -/

def userA : Bytes := List.replicate 20 1
def userB : Bytes := List.replicate 20 2
def distributionAccount : Bytes :=
  [147, 53, 72, 69, 3, 2, 116, 205, 75, 241, 104, 106, 189, 96, 171, 40, 236, 82, 225, 167]
def factoryAccount : Bytes :=
  [46, 100, 67, 204, 160, 134, 112, 177, 166, 176, 206, 218, 18, 224, 54, 154, 127, 246, 190, 90]

def sampleAccounts : List Bytes := [userA, userB, distributionAccount, factoryAccount]

def terpText : Bytes → Text := Bech32.encode (text "terp")

def sampleParse : Text → Except Err Bytes :=
  Bech32.parse (text "terp") sampleAccounts ⟨.other, text "decoding bech32 failed"⟩

def sampleAddresses : Addresses where
  accAddressFromBech32 := sampleParse
  addressString := terpText
  parse_print t a h :=
    (show ∀ a ∈ sampleAccounts, sampleParse (terpText a) = .ok a by decide +kernel) a (Bech32.parse_eq_ok h).1
  parsed_chars t a h := by
    have hchars : ∀ a ∈ sampleAccounts, ∀ b ∈ terpText a ++ Bech32.upper (terpText a),
        isLetter b = true ∨ isDigit b = true := by decide +kernel
    obtain ⟨ha, rfl | rfl⟩ := Bech32.parse_eq_ok h
    · exact fun b hb => hchars a ha b (List.mem_append_left _ hb)
    · exact fun b hb => hchars a ha b (List.mem_append_right _ hb)

def sampleKeeper : Keeper where
  toAddresses := sampleAddresses
  enabledCapabilities := []
  authority := []
  moduleAddress := factoryAccount
  distributionAddress := distributionAccount
  blockedAddr a := a = distributionAccount ∨ a = factoryAccount
  validateMetadata _ := .ok ()
  marshal m := Protobuf.bytesField 10 m.admin
  unmarshal bz := (Protobuf.readBytes 10 bz).elim (.error ⟨.other, text "unexpected EOF"⟩) (fun r => .ok ⟨r.1⟩)
  unmarshal_marshal m := by
    rw [← List.append_nil (Protobuf.bytesField 10 m.admin), Protobuf.readBytes_bytesField _ _ (by simp)]
    rfl
  unmarshal_nil := rfl

def emptyState : State := ⟨⟨⟨fun _ _ => 0, fun _ => 0⟩, fun _ => none⟩, ∅, some ⟨[], 0⟩⟩

def deliveryOf (msg : Msg) : Delivery := ⟨⟨fun _ _ => 0, fun _ => false⟩, msg⟩

def goldOf (creator : Text) : Text := text "factory/" ++ creator ++ text "/gold"

def gold : Text := goldOf (terpText userA)

def mintGold : Delivery := deliveryOf (.mint ⟨terpText userA, ⟨gold, 10⟩, []⟩)

/-- Gold is created, ten pieces are minted, and the admin is given up. -/
def renounceGold : List Delivery :=
  [deliveryOf (.createDenom ⟨terpText userA, text "gold"⟩), mintGold,
      deliveryOf (.changeAdmin ⟨terpText userA, gold, []⟩)]

/-- The creator cannot mint again once the admin is given up. -/
theorem renounced_gold_keeps_supply :
    (run sampleKeeper.deliver emptyState renounceGold).supply gold = 10 ∧
    (run sampleKeeper.deliver emptyState (renounceGold ++ [mintGold])).supply gold = 10 := by
  have hten : (run sampleKeeper.deliver emptyState renounceGold).supply gold = 10 := by decide +kernel
  refine ⟨hten, ?_⟩
  rw [← hten]
  have hcreated : (run sampleKeeper.deliver emptyState renounceGold).Created gold := by
    unfold State.Created
    decide +kernel
  have hadmin : sampleKeeper.IsAdmin (run sampleKeeper.deliver emptyState renounceGold) gold [] := by
    unfold Keeper.IsAdmin
    decide +kernel
  exact ((factory_supply_belongs_to_admin sampleKeeper (by decide) emptyState (renounceGold ++ [mintGold])
    (by decide +kernel)).2.2 renounceGold [mintGold] rfl gold hcreated hadmin).2

end Terpz.Tokenfactory
