import Terpz.Feeshare.Keeper
import Terpz.Lib.OwnerIndex

/-! The indexes of fee shares by deployer and by withdrawer are exact in every reachable state. A query walks the
entries that start with the queried address, and those may belong to another. -/
namespace Terpz.Feeshare
open Lib PrefixStore

namespace Keeper
variable (k : Keeper)

def deployerOf (fs : FeeShare) : Option Bytes := some (k.addrs.getDeployerAddr fs)

/-- Without an address there is no withdrawer. -/
def withdrawerOf (fs : FeeShare) : Option Bytes :=
  if k.addrs.getWithdrawerAddr fs = [] then none else some (k.addrs.getWithdrawerAddr fs)

def recordAt (t : Table FeeShare) (c : Bytes) : Option FeeShare := t[c]?

def Present (st : PrefixStore UInt8 UInt8) (key : Bytes) : Prop := (st[key]?).isSome = true

/-- A fee share stands under its own contract, and the indexes are those of the fee shares. -/
structure Indexed (length : Nat) (s : State) : Prop where
  contracts : ∀ c fs, s.feeShares[c]? = some fs → k.addrs.accAddressFromBech32 fs.contractAddress = .ok c
  deployers : OwnerIndex length k.deployerOf (recordAt s.feeShares) (Present s.deployers)
  withdrawers : OwnerIndex length k.withdrawerOf (recordAt s.feeShares) (Present s.withdrawers)

section Entries
variable {st : PrefixStore UInt8 UInt8} {key key' v : Bytes}

private theorem present_set : Present (st.set key v) key' ↔ key = key' ∨ Present st key' := by
  unfold Present
  rw [getElem?_set]
  split <;> simp_all

private theorem present_delete : Present (st.delete key) key' ↔ key ≠ key' ∧ Present st key' := by
  unfold Present
  rw [getElem?_delete]
  split <;> simp_all

/-- An entry that does not end in the contract is none of the contract's. -/
private theorem ne_of_not_suffix {c o : Bytes} (h : ¬ c <:+ key) : o ++ c ≠ key :=
  fun heq => h (heq ▸ List.suffix_append o c)

end Entries

section Changes
variable {length : Nat} {owner : FeeShare → Option Bytes} {t : Table FeeShare} {st : PrefixStore UInt8 UInt8}
  {c o o' : Bytes} {fs fs' : FeeShare}

private theorem recordAt_insert_off (t : Table FeeShare) (c : Bytes) (fs : FeeShare) (c' : Bytes) (hne : c' ≠ c) :
    recordAt (t.insert c fs) c' = recordAt t c' := by
  rw [recordAt, Table.getElem?_insert, if_neg (Ne.symm hne), recordAt]

private theorem recordAt_insert (t : Table FeeShare) (c : Bytes) (fs : FeeShare) :
    recordAt (t.insert c fs) c = some fs := by
  rw [recordAt, Table.getElem?_insert, if_pos rfl]

private theorem recordAt_erase_off (t : Table FeeShare) (c c' : Bytes) (hne : c' ≠ c) :
    recordAt (t.erase c) c' = recordAt t c' := by
  rw [recordAt, Table.getElem?_erase, if_neg (Ne.symm hne), recordAt]

private theorem recordAt_erase (t : Table FeeShare) (c : Bytes) : recordAt (t.erase c) c = none := by
  rw [recordAt, Table.getElem?_erase, if_pos rfl]

/-- The entries of a contract, from its record. -/
private theorem present_iff_owner (h : OwnerIndex length owner (recordAt t) (Present st)) (hc : c.length = length)
    (hold : recordAt t c = some fs) : Present st (o ++ c) ↔ owner fs = some o := by
  rw [h.entry_iff hc, hold]
  simp

private theorem index_add (h : OwnerIndex length owner (recordAt t) (Present st)) (hc : c.length = length)
    (hnew : recordAt t c = none) (ho : owner fs = some o) :
    OwnerIndex length owner (recordAt (t.insert c fs)) (Present (st.set (o ++ c) [1])) := by
  refine h.update hc (recordAt_insert_off t c fs) (fun key hkey => ?_) (fun o' => ?_)
  · rw [present_set]
    exact or_iff_right (ne_of_not_suffix hkey)
  · have hnone : ¬ Present st (o' ++ c) := by
      rw [h.entry_iff hc]
      simp [hnew]
    rw [present_set, or_iff_left hnone, recordAt_insert]
    simp [ho]

private theorem index_add_unowned (h : OwnerIndex length owner (recordAt t) (Present st)) (hc : c.length = length)
    (hnew : recordAt t c = none) (ho : owner fs = none) :
    OwnerIndex length owner (recordAt (t.insert c fs)) (Present st) := by
  refine h.update hc (recordAt_insert_off t c fs) (fun key _ => Iff.rfl) (fun o' => ?_)
  rw [h.entry_iff hc, recordAt_insert]
  simp [hnew, ho]

private theorem index_keep (h : OwnerIndex length owner (recordAt t) (Present st)) (hc : c.length = length)
    (hold : recordAt t c = some fs) (ho : owner fs' = owner fs) :
    OwnerIndex length owner (recordAt (t.insert c fs')) (Present st) := by
  refine h.update hc (recordAt_insert_off t c fs') (fun key _ => Iff.rfl) (fun o' => ?_)
  rw [h.entry_iff hc, recordAt_insert, hold]
  simp [ho]

private theorem index_move (h : OwnerIndex length owner (recordAt t) (Present st)) (hc : c.length = length)
    (hold : recordAt t c = some fs) (ho : owner fs = some o) (ho' : owner fs' = some o') :
    OwnerIndex length owner (recordAt (t.insert c fs')) (Present ((st.delete (o ++ c)).set (o' ++ c) [1])) := by
  refine h.update hc (recordAt_insert_off t c fs') (fun key hkey => ?_) (fun p => ?_)
  · rw [present_set, present_delete, or_iff_right (ne_of_not_suffix hkey)]
    exact and_iff_right (ne_of_not_suffix hkey)
  · rw [present_set, present_delete, present_iff_owner h hc hold, ho, recordAt_insert]
    simp only [List.append_left_inj, Option.some.injEq, exists_eq_left', ho', ne_eq]
    exact or_iff_left (fun hp => hp.1 hp.2)

private theorem index_remove (h : OwnerIndex length owner (recordAt t) (Present st)) (hc : c.length = length)
    (hold : recordAt t c = some fs) (ho : owner fs = some o) :
    OwnerIndex length owner (recordAt (t.erase c)) (Present (st.delete (o ++ c))) := by
  refine h.update hc (recordAt_erase_off t c) (fun key hkey => ?_) (fun p => ?_)
  · rw [present_delete]
    exact and_iff_right (ne_of_not_suffix hkey)
  · rw [present_delete, present_iff_owner h hc hold, ho, recordAt_erase]
    simp

private theorem index_remove_unowned (h : OwnerIndex length owner (recordAt t) (Present st)) (hc : c.length = length)
    (hold : recordAt t c = some fs) (ho : owner fs = none) :
    OwnerIndex length owner (recordAt (t.erase c)) (Present st) := by
  refine h.update hc (recordAt_erase_off t c) (fun key _ => Iff.rfl) (fun p => ?_)
  rw [present_iff_owner h hc hold, ho, recordAt_erase]
  simp

end Changes

section Steps
variable {k} {length : Nat} {s s' : State} {c : Bytes} {fs : FeeShare}

private theorem withdrawerOf_of_ne (h : k.addrs.getWithdrawerAddr fs ≠ []) :
    k.withdrawerOf fs = some (k.addrs.getWithdrawerAddr fs) := if_neg h

private theorem withdrawerOf_of_nil (h : k.addrs.getWithdrawerAddr fs = []) : k.withdrawerOf fs = none := if_pos h

theorem indexed_empty (p : Params) : k.Indexed length { State.empty with params := p } where
  contracts c fs h := by
    simp [State.empty] at h
  deployers := by
    refine ⟨fun c v hv => ?_, fun key => ?_⟩
    · simp [recordAt, State.empty] at hv
    · simp [Present, recordAt, State.empty]
  withdrawers := by
    refine ⟨fun c v hv => ?_, fun key => ?_⟩
    · simp [recordAt, State.empty] at hv
    · simp [Present, recordAt, State.empty]

private theorem contracts_insert
    (h : ∀ c fs, s.feeShares[c]? = some fs → k.addrs.accAddressFromBech32 fs.contractAddress = .ok c)
    (hfs : k.addrs.accAddressFromBech32 fs.contractAddress = .ok c) (c' : Bytes) (fs' : FeeShare)
    (hat : (s.feeShares.insert c fs)[c']? = some fs') :
    k.addrs.accAddressFromBech32 fs'.contractAddress = .ok c' := by
  rw [Table.getElem?_insert] at hat
  split at hat
  · next heq =>
    cases hat
    exact heq ▸ hfs
  · exact h c' fs' hat

/-- A fee share that is added with its two entries. -/
private theorem Indexed.add (h : k.Indexed length s) (hc : c.length = length) (hnew : s.feeShares[c]? = none)
    (hfs : k.addrs.accAddressFromBech32 fs.contractAddress = .ok c)
    (hshares : s'.feeShares = s.feeShares.insert c fs)
    (hdeployers : s'.deployers = s.deployers.set (k.addrs.getDeployerAddr fs ++ c) [1])
    (hwithdrawers : s'.withdrawers = if k.addrs.getWithdrawerAddr fs ≠ [] then
      s.withdrawers.set (k.addrs.getWithdrawerAddr fs ++ c) [1] else s.withdrawers) : k.Indexed length s' where
  contracts := by
    rw [hshares]
    exact contracts_insert h.contracts hfs
  deployers := by
    rw [hshares, hdeployers]
    exact index_add h.deployers hc hnew rfl
  withdrawers := by
    rw [hshares, hwithdrawers]
    split
    · next hne => exact index_add h.withdrawers hc hnew (withdrawerOf_of_ne hne)
    · next hnil => exact index_add_unowned h.withdrawers hc hnew (withdrawerOf_of_nil (not_not.mp hnil))

private theorem setFeeShare_eq_ok (fs : FeeShare) (hfs : k.addrs.accAddressFromBech32 fs.contractAddress = .ok c)
    (h : k.setFeeShare s fs = .ok s') : s' = { s with feeShares := s.feeShares.insert c fs } := by
  rw [setFeeShare, failIf_bind_eq_ok, Addresses.getContractAddr, Addresses.parseOrNil_of_parse hfs] at h
  exact (Except.ok.inj h.2).symm

theorem importShare_indexed (h : k.Indexed length s) {share : FeeShare}
    (hlen : ∀ c, k.addrs.accAddressFromBech32 share.contractAddress = .ok c → c.length = length)
    (hnew : s.feeShares[k.addrs.getContractAddr share]? = none) (himport : k.importShare s share = .ok s') :
    k.Indexed length s' ∧ s'.feeShares = s.feeShares.insert (k.addrs.getContractAddr share) share := by
  rw [importShare, bind_eq_ok] at himport
  obtain ⟨s₁, hset, hs'⟩ := himport
  have hne : k.addrs.getContractAddr share ≠ [] := by
    rw [setFeeShare, failIf_bind_eq_ok] at hset
    exact hset.1
  have hparse := Addresses.parse_of_ne_nil hne
  obtain rfl := setFeeShare_eq_ok share hparse hset
  obtain rfl := Except.ok.inj hs'
  by_cases hw : k.addrs.getWithdrawerAddr share ≠ []
  · rw [if_pos hw]
    exact ⟨h.add (hlen _ hparse) hnew hparse rfl rfl (if_pos hw).symm, rfl⟩
  · rw [if_neg hw]
    exact ⟨h.add (hlen _ hparse) hnew hparse rfl rfl (if_neg hw).symm, rfl⟩

theorem importShares_indexed {shares : List FeeShare} (h : k.Indexed length s)
    (hlen : ∀ share ∈ shares, ∀ c, k.addrs.accAddressFromBech32 share.contractAddress = .ok c → c.length = length)
    (hnew : ∀ share ∈ shares, s.feeShares[k.addrs.getContractAddr share]? = none)
    (hdistinct : (shares.map k.addrs.getContractAddr).Nodup) (himport : k.importShares s shares = .ok s') :
    k.Indexed length s' := by
  induction shares generalizing s with
  | nil =>
    obtain rfl := Except.ok.inj himport
    exact h
  | cons share shares ih =>
    rw [importShares, bind_eq_ok] at himport
    obtain ⟨s₁, hone, hrest⟩ := himport
    rw [List.map_cons, List.nodup_cons] at hdistinct
    obtain ⟨hs₁, hshares⟩ :=
      importShare_indexed h (hlen share List.mem_cons_self) (hnew share List.mem_cons_self) hone
    refine ih hs₁ (fun x hx => hlen x (List.mem_cons_of_mem _ hx)) (fun x hx => ?_) hdistinct.2 hrest
    -- the contracts still to come are none that was written
    have hne : k.addrs.getContractAddr share ≠ k.addrs.getContractAddr x :=
      fun heq => hdistinct.1 (heq ▸ List.mem_map_of_mem hx)
    rw [hshares, Table.getElem?_insert, if_neg hne]
    exact hnew x (List.mem_cons_of_mem _ hx)

section Messages
variable {wasm : Bytes → Option ContractInfo} {contractAddress deployerAddress withdrawerAddress : Text}

/-- Whoever controls a contract has an address that was parsed. -/
private theorem controlling_parsed {a : Bytes}
    (h : k.getContractAdminOrCreatorAddress wasm c deployerAddress = .ok a) :
    ∃ t, k.addrs.accAddressFromBech32 t = .ok a := by
  simp only [getContractAdminOrCreatorAddress, bind_eq_ok] at h
  obtain ⟨_, -, info, -, h⟩ := h
  split at h
  · exact ⟨_, mapError_eq_ok.mp (failIf_bind_eq_ok.mp h).2⟩
  · exact ⟨_, mapError_eq_ok.mp (failIf_bind_eq_ok.mp h).2⟩

private theorem registeringDeployer_parsed {a : Bytes}
    (h : k.registeringDeployer wasm c contractAddress deployerAddress withdrawerAddress = .ok a) :
    ∃ t, k.addrs.accAddressFromBech32 t = .ok a := by
  rw [registeringDeployer, bind_eq_ok] at h
  obtain ⟨info, -, h⟩ := h
  split at h
  · exact ⟨_, (failIf_bind_eq_ok.mp h).2⟩
  · exact controlling_parsed h

theorem registerFeeShare_indexed (h : k.Indexed length s)
    (hlen : ∀ c, k.addrs.accAddressFromBech32 contractAddress = .ok c → c.length = length)
    (hmsg : k.registerFeeShare wasm s contractAddress deployerAddress withdrawerAddress = .ok s') :
    k.Indexed length s' := by
  simp only [registerFeeShare, bind_eq_ok, failIf_eq_ok, exists_const, parseContract, mapError_eq_ok] at hmsg
  obtain ⟨-, contract, hcontract, hnew, withdrawer, hwithdrawer, deployer, hdeployer, s₁, hset, hs'⟩ := hmsg
  obtain ⟨t, hparsed⟩ := registeringDeployer_parsed hdeployer
  have hfs : k.addrs.accAddressFromBech32 (k.addrs.newFeeShare contract deployer withdrawer).contractAddress =
      .ok contract := k.addrs.parse_print _ _ hcontract
  obtain rfl := setFeeShare_eq_ok _ hfs hset
  obtain rfl := Except.ok.inj hs'
  have hd : k.addrs.getDeployerAddr (k.addrs.newFeeShare contract deployer withdrawer) = deployer :=
    Addresses.parseOrNil_print hparsed
  have hw : k.addrs.getWithdrawerAddr (k.addrs.newFeeShare contract deployer withdrawer) = withdrawer :=
    Addresses.parseOrNil_print hwithdrawer
  refine h.add (hlen _ hcontract) (by simpa [isFeeShareRegistered] using hnew) hfs rfl ?_ ?_
  · rw [hd]
    rfl
  · rw [hw, if_pos (Addresses.ne_nil_of_parse hwithdrawer)]
    rfl

private theorem registeredShare_eq_ok (h : registeredShare s c contractAddress = .ok fs) :
    s.feeShares[c]? = some fs := by
  unfold registeredShare getFeeShare at h
  split at h
  · cases h
  · next heq => rw [heq, Except.ok.inj h]

theorem updateFeeShare_indexed (h : k.Indexed length s)
    (hlen : ∀ c, k.addrs.accAddressFromBech32 contractAddress = .ok c → c.length = length)
    (hmsg : k.updateFeeShare wasm s contractAddress deployerAddress withdrawerAddress = .ok s') :
    k.Indexed length s' := by
  simp only [updateFeeShare, bind_eq_ok, failIf_eq_ok, exists_const, parseContract, mapError_eq_ok] at hmsg
  obtain ⟨-, contract, hcontract, fs, hfound, -, _, -, old, hold, new, hnew, hset⟩ := hmsg
  have hat := registeredShare_eq_ok hfound
  have hparse := h.contracts contract fs hat
  obtain rfl := setFeeShare_eq_ok { fs with withdrawerAddress := k.addrs.addressString new } hparse hset
  have howner : k.withdrawerOf fs = some old := by
    have hw : k.addrs.getWithdrawerAddr fs = old := Addresses.parseOrNil_of_parse hold
    rw [withdrawerOf_of_ne (by rw [hw]; exact Addresses.ne_nil_of_parse hold), hw]
  have howner' : k.withdrawerOf { fs with withdrawerAddress := k.addrs.addressString new } = some new := by
    have hw : k.addrs.getWithdrawerAddr { fs with withdrawerAddress := k.addrs.addressString new } = new :=
      Addresses.parseOrNil_print hnew
    rw [withdrawerOf_of_ne (by rw [hw]; exact Addresses.ne_nil_of_parse hnew), hw]
  exact
    { contracts := contracts_insert h.contracts hparse
      deployers := index_keep h.deployers (hlen _ hcontract) hat rfl
      withdrawers := index_move h.withdrawers (hlen _ hcontract) hat howner howner' }

theorem cancelFeeShare_indexed (h : k.Indexed length s)
    (hlen : ∀ c, k.addrs.accAddressFromBech32 contractAddress = .ok c → c.length = length)
    (hmsg : k.cancelFeeShare wasm s contractAddress deployerAddress = .ok s') : k.Indexed length s' := by
  simp only [cancelFeeShare, bind_eq_ok, failIf_eq_ok, exists_const, parseContract, mapError_eq_ok] at hmsg
  obtain ⟨-, contract, hcontract, fee, hfound, _, -, s₁, hdelete, hs'⟩ := hmsg
  have hat := registeredShare_eq_ok hfound
  have haddr : k.addrs.getContractAddr fee = contract := Addresses.parseOrNil_of_parse (h.contracts contract fee hat)
  rw [deleteFeeShare, failIf_bind_eq_ok, haddr] at hdelete
  obtain rfl := Except.ok.inj hdelete.2
  obtain rfl := Except.ok.inj hs'
  have hdeployers := index_remove h.deployers (hlen _ hcontract) hat rfl
  have hcontracts (c : Bytes) (fs : FeeShare) (hfs : (s.feeShares.erase contract)[c]? = some fs) :
      k.addrs.accAddressFromBech32 fs.contractAddress = .ok c := by
    rw [Table.getElem?_erase] at hfs
    split at hfs
    · cases hfs
    · exact h.contracts c fs hfs
  split
  · next hne =>
    exact ⟨hcontracts, hdeployers, index_remove h.withdrawers (hlen _ hcontract) hat (withdrawerOf_of_ne hne)⟩
  · next hnil =>
    exact ⟨hcontracts, hdeployers,
      index_remove_unowned h.withdrawers (hlen _ hcontract) hat (withdrawerOf_of_nil (not_not.mp hnil))⟩

end Messages

/-- The contract of a message has the common length. -/
def OfLength (k : Keeper) (length : Nat) (d : Delivery) : Prop :=
  ∀ t, d.msg.contract? = some t → ∀ c, k.addrs.accAddressFromBech32 t = .ok c → c.length = length

theorem deliver_indexed (h : k.Indexed length s) {d : Delivery} (hlen : k.OfLength length d) :
    k.Indexed length (k.deliver s d) := by
  unfold deliver
  cases hresult : k.handle s d with
  | error e => exact h
  | ok s' =>
    obtain ⟨wasm, msg⟩ := d
    cases msg with
    | register c dep w => exact registerFeeShare_indexed h (hlen c rfl) hresult
    | update c dep w => exact updateFeeShare_indexed h (hlen c rfl) hresult
    | cancel c dep => exact cancelFeeShare_indexed h (hlen c rfl) hresult
    | updateParams authority params =>
      simp only [handle, updateParams, setParams, bind_eq_ok, failIf_eq_ok, exists_const] at hresult
      obtain ⟨-, _, -, hs'⟩ := hresult
      obtain rfl := Except.ok.inj hs'
      exact ⟨h.contracts, h.deployers, h.withdrawers⟩

/-- The indexes are exact from genesis on. -/
theorem reachable_indexed {params : Params} {shares : List FeeShare} {ds : List Delivery}
    (hdistinct : (shares.map k.addrs.getContractAddr).Nodup)
    (hshares : ∀ share ∈ shares, ∀ c, k.addrs.accAddressFromBech32 share.contractAddress = .ok c → c.length = length)
    (hds : ∀ d ∈ ds, k.OfLength length d) (hgenesis : k.initGenesis params shares = .ok s) :
    k.Indexed length (run k.deliver s ds) := by
  simp only [initGenesis, setParams, bind_eq_ok] at hgenesis
  obtain ⟨s₀, ⟨_, -, hs₀⟩, himport⟩ := hgenesis
  obtain rfl := Except.ok.inj hs₀
  have hstart : k.Indexed length s :=
    importShares_indexed (indexed_empty params) hshares (fun share _ => by simp [State.empty]) hdistinct himport
  have halong : Along k.deliver (fun _ d => k.OfLength length d) s ds :=
    Along.of_forall_mem (fun d hd _ => hds d hd) s
  exact halong.invariant (I := k.Indexed length) (fun _ _ h hlen => deliver_indexed h hlen) hstart

end Steps

section Queries
variable {k} {length : Nat} {s : State}

private theorem mem_contractsUnder {index : PrefixStore UInt8 UInt8} {owner : Bytes} {x : Text} :
    x ∈ k.contractsUnder index owner ↔ ∃ y, Present index (owner ++ y) ∧ k.addrs.addressString y = x := by
  simp only [contractsUnder, List.mem_map, Prod.exists, mem_iteratePrefix]
  constructor
  · rintro ⟨_, v, ⟨⟨y, rfl⟩, hv⟩, hx⟩
    rw [List.drop_left] at hx
    exact ⟨y, by rw [Present, hv]; rfl, hx⟩
  · rintro ⟨y, hy, hx⟩
    obtain ⟨v, hv⟩ := Option.isSome_iff_exists.mp hy
    exact ⟨owner ++ y, v, ⟨List.prefix_append _ _, hv⟩, by rw [List.drop_left, hx]⟩

/-- Texts name addresses, so a query is right when the walk is. -/
private theorem lists_iff {index : PrefixStore UInt8 UInt8} {owner : Bytes} {P : Bytes → Prop} :
    (∀ x, x ∈ k.contractsUnder index owner ↔ ∃ c, P c ∧ k.addrs.addressString c = x) ↔
      ∀ y, Present index (owner ++ y) ↔ P y := by
  simp only [mem_contractsUnder]
  constructor
  · intro h y
    constructor
    · intro hy
      obtain ⟨c, hc, heq⟩ := (h _).mp ⟨y, hy, rfl⟩
      exact k.addrs.print_injective heq ▸ hc
    · intro hy
      obtain ⟨c, hc, heq⟩ := (h _).mpr ⟨y, hy, rfl⟩
      exact k.addrs.print_injective heq ▸ hc
  · intro h x
    exact exists_congr (fun y => and_congr_left (fun _ => h y))

private theorem withdrawerOf_eq_some {fs : FeeShare} {w : Bytes} (hw : w ≠ []) :
    k.withdrawerOf fs = some w ↔ k.addrs.getWithdrawerAddr fs = w := by
  unfold withdrawerOf
  split
  · next hnil => exact ⟨nofun, fun h => absurd (h.symm.trans hnil) hw⟩
  · simp

private theorem deployerWalk_iff (h : k.Indexed length s) {d : Bytes} :
    (∀ x, x ∈ k.contractsUnder s.deployers d ↔
        ∃ c, (∃ fs, getFeeShare s c = some fs ∧ k.addrs.getDeployerAddr fs = d) ∧ k.addrs.addressString c = x) ↔
      ∀ c fs, getFeeShare s c = some fs → d <+: k.addrs.getDeployerAddr fs ++ c → k.addrs.getDeployerAddr fs = d := by
  rw [lists_iff]
  have hwalk := h.deployers.walk_iff (d := d)
  simp only [deployerOf, Option.some.injEq] at hwalk
  exact hwalk.trans ⟨fun hall c fs hfs => hall c fs _ hfs rfl, fun hall c fs o hfs ho => ho ▸ hall c fs hfs⟩

private theorem withdrawerWalk_iff (h : k.Indexed length s) {w : Bytes} (hw : w ≠ []) :
    (∀ x, x ∈ k.contractsUnder s.withdrawers w ↔
        ∃ c, (∃ fs, getFeeShare s c = some fs ∧ k.addrs.getWithdrawerAddr fs = w) ∧ k.addrs.addressString c = x) ↔
      ∀ c fs, getFeeShare s c = some fs → k.addrs.getWithdrawerAddr fs ≠ [] →
        w <+: k.addrs.getWithdrawerAddr fs ++ c → k.addrs.getWithdrawerAddr fs = w := by
  have hwalk := h.withdrawers.walk_iff (d := w)
  simp only [withdrawerOf_eq_some hw] at hwalk
  rw [lists_iff]
  refine hwalk.trans ⟨fun hall c fs hfs hne => ?_, fun hall c fs o hfs ho => ?_⟩
  · exact hall c fs _ hfs (withdrawerOf_of_ne hne)
  · have hne : o ≠ [] := by
      rintro rfl
      unfold withdrawerOf at ho
      split at ho
      · cases ho
      · next hne => exact hne (Option.some.inj ho)
    obtain rfl := (withdrawerOf_eq_some hne).mp ho
    exact hall c fs hfs hne

end Queries

/-- In every reachable state the indexes say exactly who deployed a contract and who withdraws for it. A query by
deployer or withdrawer is exact when no entry of another one starts with the queried address. -/
theorem feeshare_indexes_exact (length : Nat) (params : Params) (shares : List FeeShare) (ds : List Delivery)
    (s : State) (hdistinct : (shares.map k.addrs.getContractAddr).Nodup)
    (hshares : ∀ share ∈ shares, ∀ c, k.addrs.accAddressFromBech32 share.contractAddress = .ok c → c.length = length)
    (hds : ∀ d ∈ ds, k.OfLength length d) (hgenesis : k.initGenesis params shares = .ok s) :
    (∀ d c, c.length = length → (isDeployerMapSet (run k.deliver s ds) d c = true ↔
      ∃ fs, getFeeShare (run k.deliver s ds) c = some fs ∧ k.addrs.getDeployerAddr fs = d)) ∧
    (∀ w c, w ≠ [] → c.length = length → (isWithdrawerMapSet (run k.deliver s ds) w c = true ↔
      ∃ fs, getFeeShare (run k.deliver s ds) c = some fs ∧ k.addrs.getWithdrawerAddr fs = w)) ∧
    (∀ t d, k.addrs.accAddressFromBech32 t = .ok d →
      ∃ contracts, k.deployerFeeShares (run k.deliver s ds) t = .ok contracts ∧
        ((∀ x, x ∈ contracts ↔ ∃ c, (∃ fs, getFeeShare (run k.deliver s ds) c = some fs ∧
            k.addrs.getDeployerAddr fs = d) ∧ k.addrs.addressString c = x) ↔
          ∀ c fs, getFeeShare (run k.deliver s ds) c = some fs →
            d <+: k.addrs.getDeployerAddr fs ++ c → k.addrs.getDeployerAddr fs = d)) ∧
    ∀ t w, k.addrs.accAddressFromBech32 t = .ok w →
      ∃ contracts, k.withdrawerFeeShares (run k.deliver s ds) t = .ok contracts ∧
        ((∀ x, x ∈ contracts ↔ ∃ c, (∃ fs, getFeeShare (run k.deliver s ds) c = some fs ∧
            k.addrs.getWithdrawerAddr fs = w) ∧ k.addrs.addressString c = x) ↔
          ∀ c fs, getFeeShare (run k.deliver s ds) c = some fs → k.addrs.getWithdrawerAddr fs ≠ [] →
            w <+: k.addrs.getWithdrawerAddr fs ++ c → k.addrs.getWithdrawerAddr fs = w) := by
  have h := reachable_indexed hdistinct hshares hds hgenesis
  refine ⟨fun d c hc => ?_, fun w c hw hc => ?_, fun t d ht => ?_, fun t w ht => ?_⟩
  · refine (h.deployers.entry_iff hc).trans ?_
    simp only [deployerOf, Option.some.injEq]
    rfl
  · refine (h.withdrawers.entry_iff hc).trans ?_
    simp only [withdrawerOf_eq_some hw]
    rfl
  · exact ⟨_, by rw [deployerFeeShares, ht]; rfl, deployerWalk_iff h⟩
  · exact ⟨_, by rw [withdrawerFeeShares, ht]; rfl, withdrawerWalk_iff h (Addresses.ne_nil_of_parse ht)⟩

section Sample

/-- A contract that governance administers, so that it registers itself. -/
def selfDelivery (contract : Bytes) : Delivery where
  wasm _ := some ⟨terpText sampleUser, govText⟩
  msg := .register (terpText contract) (terpText sampleUser) (terpText contract)

def openParams : Params := ⟨true, some (5 * 10 ^ 17), []⟩

/-- A contract that its creator registers, with itself as withdrawer. -/
def creatorDelivery (contract : Bytes) : Delivery where
  wasm c := if c = contract then some ⟨terpText sampleUser, []⟩ else none
  msg := .register (terpText contract) (terpText sampleUser) (terpText contract)

def twoShares : State :=
  run sampleKeeper.deliver ⟨openParams, ∅, ∅, ∅⟩ [selfDelivery contractA, creatorDelivery contractB]

/-- One contract registered itself and another was registered by its creator: the index knows both deployers. -/
theorem feeshare_indexes_exact_two :
    isDeployerMapSet twoShares contractA contractA = true ∧ isDeployerMapSet twoShares sampleUser contractB = true := by
  have hlen : ∀ d ∈ [selfDelivery contractA, creatorDelivery contractB], sampleKeeper.OfLength 32 d := by
    have hparse : ∀ t ∈ [terpText contractA, terpText contractB],
        (sampleParse t).toOption.all (·.length = 32) = true := by
      decide +kernel
    intro d hd t ht c hc
    have hread : (sampleParse t).toOption = some c := congrArg Except.toOption hc
    refine of_decide_eq_true ((Option.all_eq_true _ _).mp (hparse t ?_) c hread)
    rcases List.mem_pair.mp hd with rfl | rfl <;> cases ht <;> simp
  have h := sampleKeeper.feeshare_indexes_exact 32 openParams [] _ ⟨openParams, ∅, ∅, ∅⟩ List.nodup_nil nofun hlen rfl
  refine ⟨(h.1 contractA contractA rfl).mpr ?_, (h.1 sampleUser contractB rfl).mpr ?_⟩
  · exact ⟨⟨terpText contractA, terpText contractA, terpText contractA⟩, by decide +kernel, by decide +kernel⟩
  · exact ⟨⟨terpText contractB, terpText sampleUser, terpText contractB⟩, by decide +kernel, by decide +kernel⟩

def oneShare : State := run sampleKeeper.deliver ⟨openParams, ∅, ∅, ∅⟩ [selfDelivery contractA]

/-- The query for the first 20 bytes of a contract that registered itself lists 44 bytes that are no contract, and
nothing is registered with the queried deployer. -/
theorem short_deployer_lists_stranger :
    sampleKeeper.initGenesis openParams [] = .ok ⟨openParams, ∅, ∅, ∅⟩ ∧
      sampleKeeper.deployerFeeShares oneShare (terpText (contractA.take 20)) = .ok [terpText (List.replicate 44 7)] ∧
      ∀ c fs, getFeeShare oneShare c = some fs → sampleKeeper.addrs.getDeployerAddr fs ≠ contractA.take 20 := by
  have hall : ∀ e ∈ oneShare.feeShares.toList, sampleKeeper.addrs.getDeployerAddr e.2 ≠ contractA.take 20 := by
    decide +kernel
  exact ⟨rfl, by decide +kernel, fun c fs hfs => hall (c, fs) (Std.ExtTreeMap.mem_toList_iff_getElem?_eq_some.mpr hfs)⟩

end Sample
end Keeper
end Terpz.Feeshare
