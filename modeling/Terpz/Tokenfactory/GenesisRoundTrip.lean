import Terpz.Tokenfactory.Authority
import Terpz.Tokenfactory.Genesis

/-! What is exported and imported again: an invariant of the store along every run, the import as a function of
the listed denominations, and the states that come back as they were. -/
namespace Terpz.Tokenfactory
open Lib PrefixStore

section Keys

theorem creatorKey_inj {creator denom creator' denom' : Text} (hc : 124 ∉ creator) (hd : 124 ∉ denom)
    (h : creatorKey creator denom = creatorKey creator' denom') : creator = creator' ∧ denom = denom' := by
  have hsep : keySeparator = [124] := by decide +kernel
  rw [creatorKey_eq, creatorKey_eq, hsep] at h
  have hparts := List.append_cancel_left h
  obtain ⟨hcreator, -, hdenom⟩ := (List.append_cons_inj_of_notMem hc hd).mp hparts
  exact ⟨hcreator, hdenom⟩

theorem creatorsPrefix_creatorKey (creator denom : Text) : creatorsPrefix <+: creatorKey creator denom := by
  rw [creatorKey_eq, creatorsPrefix]
  simp [List.intercalate]

theorem not_creatorsPrefix_authorityKey (denom : Text) : ¬ creatorsPrefix <+: authorityKey denom := by
  rintro ⟨rest, h⟩
  refine creator_append_ne_authorityKey (keySeparator ++ rest) denom (Eq.trans ?_ h)
  simp [creatorsPrefix, List.intercalate]

/-- A valid denomination holds no separator. -/
theorem separator_not_mem_denom {denom : Text} {u : Unit} (h : validateDenom denom = .ok u) : 124 ∉ denom := by
  rw [validateDenom, failIf_eq_ok, Bool.not_eq_false] at h
  cases denom with
  | nil => exact List.not_mem_nil
  | cons b bs =>
    simp only [matchesDenom, Bool.and_eq_true, List.all_eq_true] at h
    obtain ⟨⟨⟨hletter, -⟩, -⟩, hchars⟩ := h
    rintro (_ | ⟨_, hmem⟩)
    · revert hletter
      decide
    · have hchar := hchars _ hmem
      revert hchar
      decide

theorem Addresses.separator_not_mem (addrs : Addresses) {t : Text} {a : Bytes}
    (h : addrs.accAddressFromBech32 t = .ok a) : 124 ∉ t := by
  intro hmem
  have hchar := addrs.parsed_chars t a h 124 hmem
  revert hchar
  decide

end Keys

namespace Keeper
variable (k : Keeper) {s s' : State}

theorem mem_getDenomsFromCreator {creator denom : Text} :
    denom ∈ getDenomsFromCreator s creator ↔ ∃ v, s.store[creatorKey creator denom]? = some v := by
  rw [getDenomsFromCreator, List.mem_map]
  constructor
  · rintro ⟨⟨key, v⟩, he, rfl⟩
    obtain ⟨⟨rest, rfl⟩, hget⟩ := mem_iteratePrefix.mp he
    exact ⟨v, by rw [creatorKey, List.drop_left]; exact hget⟩
  · rintro ⟨v, hget⟩
    exact ⟨(creatorKey creator denom, v), mem_iteratePrefix.mpr ⟨List.prefix_append .., hget⟩, List.drop_left⟩

/-- The denomination is in the index, under its own text. -/
def Listed (s : State) (creator denom : Text) : Prop := s.store[creatorKey creator denom]? = some denom

/-- What the store holds in every state of a chain: admins of listed denominations, and an index in which each
denomination stands once, is described by the bank and names its creator in its text. -/
structure Kept (s : State) : Prop where
  entries : ∀ key v, s.store[key]? = some v →
    (∃ denom m, key = authorityKey denom ∧ v = k.marshal m ∧ m.validate k.toAddresses = .ok () ∧
      ∃ creator, Listed s creator denom) ∨
    ∃ creator, key = creatorKey creator v
  authority : ∀ {creator denom}, Listed s creator denom → ∃ v, s.store[authorityKey denom]? = some v
  unique : ∀ {creator creator' denom}, Listed s creator denom → Listed s creator' denom → creator = creator'
  described : ∀ {creator denom}, Listed s creator denom → s.Created denom
  parses : ∀ {creator denom}, Listed s creator denom → ∃ parts, k.deconstructDenom denom = .ok parts
  clean : ∀ {creator denom}, Listed s creator denom → 124 ∉ creator

variable {k}

theorem separator_not_mem_of_deconstruct {denom : Text} {parts : Text × Text}
    (h : k.deconstructDenom denom = .ok parts) : 124 ∉ denom := by
  obtain ⟨_, hvalid, -⟩ := bind_eq_ok.mp h
  exact separator_not_mem_denom hvalid

/-- The creator a denomination names is printed from an address. -/
theorem creator_parses {denom creator subdenom : Text} (h : k.deconstructDenom denom = .ok (creator, subdenom)) :
    ∃ a, k.accAddressFromBech32 creator = .ok a := by
  simp only [Addresses.deconstructDenom, bind_eq_ok, failIf_eq_ok, exists_const] at h
  obtain ⟨_, -, -, -, a, ha, h⟩ := h
  cases h
  refine ⟨a, k.parse_print ((denom.splitOn 47).getD 1 []) a ?_⟩
  cases hparse : k.accAddressFromBech32 ((denom.splitOn 47).getD 1 []) with
  | error e =>
    rw [hparse] at ha
    cases ha
  | ok a' =>
    rw [hparse] at ha
    cases ha
    rfl

theorem validate_creator {creator : Text} {a : Bytes} (h : k.accAddressFromBech32 creator = .ok a) :
    (DenomAuthorityMetadata.mk creator).validate k.toAddresses = .ok () := by
  rw [DenomAuthorityMetadata.validate]
  split
  · rw [h]
    rfl
  · rfl

namespace Kept

/-- In the index, what stands under a creator's key is listed there. -/
theorem listed_of_mem (h : k.Kept s) {creator denom v : Text} (hget : s.store[creatorKey creator denom]? = some v) :
    Listed s creator denom := by
  rcases h.entries _ v hget with ⟨denom', _, hkey, -⟩ | ⟨creator', hkey⟩
  · exact absurd hkey (creatorKey_ne_authorityKey _ _ _)
  · have hlisted : Listed s creator' v := by rw [Listed, ← hkey, hget]
    obtain ⟨parts, hparts⟩ := h.parses hlisted
    obtain ⟨rfl, rfl⟩ := creatorKey_inj (h.clean hlisted) (separator_not_mem_of_deconstruct hparts) hkey.symm
    exact hlisted

theorem mem_getAllDenoms (h : k.Kept s) {denom : Text} :
    denom ∈ getAllDenoms s ↔ ∃ creator, Listed s creator denom := by
  rw [getAllDenoms, List.mem_map]
  constructor
  · rintro ⟨⟨key, v⟩, he, rfl⟩
    obtain ⟨hprefixed, hget⟩ := mem_iteratePrefix.mp he
    rcases h.entries key v hget with ⟨denom', _, rfl, -⟩ | ⟨creator, rfl⟩
    · exact absurd hprefixed (not_creatorsPrefix_authorityKey denom')
    · exact ⟨creator, hget⟩
  · rintro ⟨creator, hlisted⟩
    exact ⟨(creatorKey creator denom, denom), mem_iteratePrefix.mpr ⟨creatorsPrefix_creatorKey .., hlisted⟩, rfl⟩

/-- A listed denomination has valid authority metadata. -/
theorem authorityMetadata (h : k.Kept s) {creator denom : Text} (hlisted : Listed s creator denom) :
    ∃ m, k.getAuthorityMetadata s denom = .ok m ∧ m.validate k.toAddresses = .ok () := by
  obtain ⟨v, hget⟩ := h.authority hlisted
  rcases h.entries _ v hget with ⟨denom', m, hkey, rfl, hvalid, -⟩ | ⟨creator', hkey⟩
  · exact ⟨m, by rw [getAuthorityMetadata, get_of_getElem? hget, k.unmarshal_marshal], hvalid⟩
  · exact absurd hkey.symm (creatorKey_ne_authorityKey _ _ _)

/-- Only a listed denomination has an admin. -/
theorem listed_of_admin (h : k.Kept s) {denom sender : Text} (hadmin : k.IsAdmin s denom sender)
    (hsender : sender ≠ []) :
    ∃ creator, Listed s creator denom := by
  cases hget : s.store[authorityKey denom]? with
  | none =>
    rw [IsAdmin, getAuthorityMetadata, PrefixStore.get, hget, Option.getD_none, k.unmarshal_nil] at hadmin
    cases hadmin
    exact absurd rfl hsender
  | some v =>
    rcases h.entries _ v hget with ⟨denom', m, hkey, -, -, hlisted⟩ | ⟨creator', hkey⟩
    · rwa [authorityKey_inj hkey]
    · exact absurd hkey.symm (creatorKey_ne_authorityKey _ _ _)

/-- The invariant is about the store, and about which denominations are described. -/
theorem frame (h : k.Kept s) (hstore : s'.store = s.store) (hcreated : ∀ denom, s.Created denom → s'.Created denom) :
    k.Kept s' := by
  have hlisted : ∀ creator denom, Listed s' creator denom ↔ Listed s creator denom := by
    intro creator denom
    rw [Listed, Listed, hstore]
  refine ⟨?_, ?_, ?_, ?_, ?_, ?_⟩
  · simpa only [hstore, hlisted] using h.entries
  · intro creator denom hl
    rw [hstore]
    exact h.authority ((hlisted _ _).mp hl)
  · exact fun hl hl' => h.unique ((hlisted _ _).mp hl) ((hlisted _ _).mp hl')
  · exact fun hl => hcreated _ (h.described ((hlisted _ _).mp hl))
  · exact fun hl => h.parses ((hlisted _ _).mp hl)
  · exact fun hl => h.clean ((hlisted _ _).mp hl)

theorem setAuthority (h : k.Kept s) {creator denom : Text} (hlisted : Listed s creator denom)
    {m : DenomAuthorityMetadata} (hm : m.validate k.toAddresses = .ok ())
    (hstore : s'.store = s.store.set (authorityKey denom) (k.marshal m)) (hbank : s'.bank = s.bank) : k.Kept s' := by
  have hlookup : ∀ creator' denom', Listed s' creator' denom' ↔ Listed s creator' denom' := by
    intro creator' denom'
    rw [Listed, Listed, hstore, getElem?_set, if_neg (creatorKey_ne_authorityKey _ _ _).symm]
  refine ⟨?_, ?_, ?_, ?_, ?_, ?_⟩
  · intro key v hget
    rw [hstore, getElem?_set] at hget
    split at hget
    · rename_i hkey
      cases hget
      exact .inl ⟨denom, m, hkey.symm, rfl, hm, creator, (hlookup _ _).mpr hlisted⟩
    · rcases h.entries key v hget with ⟨denom', m', hkey, hv, hm', creator', hl⟩ | hindex
      · exact .inl ⟨denom', m', hkey, hv, hm', creator', (hlookup _ _).mpr hl⟩
      · exact .inr hindex
  · intro creator' denom' hl
    rw [hstore, getElem?_set]
    split
    · exact ⟨_, rfl⟩
    · exact h.authority ((hlookup _ _).mp hl)
  · exact fun hl hl' => h.unique ((hlookup _ _).mp hl) ((hlookup _ _).mp hl')
  · intro creator' denom' hl
    rw [State.Created, hbank]
    exact h.described ((hlookup _ _).mp hl)
  · exact fun hl => h.parses ((hlookup _ _).mp hl)
  · exact fun hl => h.clean ((hlookup _ _).mp hl)

private theorem listed_create {creator denom : Text} {a : Bytes} {parts : Text × Text}
    (hparse : k.accAddressFromBech32 creator = .ok a) (hparts : k.deconstructDenom denom = .ok parts)
    (hstore : s'.store = (s.store.set (authorityKey denom) (k.marshal ⟨creator⟩)).set (creatorKey creator denom) denom)
    (creator' denom' : Text) :
    Listed s' creator' denom' ↔ Listed s creator' denom' ∨ creator' = creator ∧ denom' = denom := by
  rw [Listed, hstore, getElem?_set, getElem?_set, if_neg (creatorKey_ne_authorityKey _ _ _).symm]
  by_cases hkey : creatorKey creator denom = creatorKey creator' denom'
  · obtain ⟨rfl, rfl⟩ := creatorKey_inj (k.separator_not_mem hparse) (separator_not_mem_of_deconstruct hparts) hkey
    simp
  · rw [if_neg hkey]
    refine ⟨.inl, fun hl => hl.resolve_right ?_⟩
    rintro ⟨rfl, rfl⟩
    exact hkey rfl

/-- A creation lists one more denomination, or the same one again. -/
theorem create (h : k.Kept s) {creator denom : Text} {a : Bytes} {parts : Text × Text}
    (hparse : k.accAddressFromBech32 creator = .ok a) (hparts : k.deconstructDenom denom = .ok parts)
    (hsame : ∀ creator', Listed s creator' denom → creator' = creator)
    (hstore : s'.store = (s.store.set (authorityKey denom) (k.marshal ⟨creator⟩)).set (creatorKey creator denom) denom)
    (hcreated : ∀ denom', s.Created denom' ∨ denom' = denom → s'.Created denom') :
    k.Kept s' ∧ ∀ creator' denom', Listed s' creator' denom' ↔
      Listed s creator' denom' ∨ creator' = creator ∧ denom' = denom := by
  have hlisted := listed_create hparse hparts hstore
  refine ⟨⟨?_, ?_, ?_, ?_, ?_, ?_⟩, hlisted⟩
  · intro key v hget
    rw [hstore, getElem?_set, getElem?_set] at hget
    split at hget
    · rename_i hkey
      cases hget
      exact .inr ⟨creator, hkey.symm⟩
    · split at hget
      · rename_i hkey
        cases hget
        exact .inl ⟨denom, _, hkey.symm, rfl, validate_creator hparse, creator, (hlisted _ _).mpr (.inr ⟨rfl, rfl⟩)⟩
      · rcases h.entries key v hget with ⟨denom', m', hkey, hv, hm', creator', hl⟩ | hindex
        · exact .inl ⟨denom', m', hkey, hv, hm', creator', (hlisted _ _).mpr (.inl hl)⟩
        · exact .inr hindex
  · intro creator' denom' hl
    rw [hstore, getElem?_set, getElem?_set]
    split
    · exact ⟨_, rfl⟩
    · split
      · exact ⟨_, rfl⟩
      · rename_i hne
        rcases (hlisted _ _).mp hl with hl | ⟨-, rfl⟩
        · exact h.authority hl
        · exact absurd rfl hne
  · intro creator₁ creator₂ denom' h₁ h₂
    rcases (hlisted _ _).mp h₁ with h₁ | ⟨rfl, rfl⟩ <;> rcases (hlisted _ _).mp h₂ with h₂ | ⟨rfl, hd⟩
    · exact h.unique h₁ h₂
    · subst hd
      exact hsame _ h₁
    · exact (hsame _ h₂).symm
    · rfl
  · intro creator' denom' hl
    refine hcreated denom' ?_
    rcases (hlisted _ _).mp hl with hl | ⟨-, hd⟩
    · exact .inl (h.described hl)
    · exact .inr hd
  · intro creator' denom' hl
    rcases (hlisted _ _).mp hl with hl | ⟨-, rfl⟩
    · exact h.parses hl
    · exact ⟨parts, hparts⟩
  · intro creator' denom' hl
    rcases (hlisted _ _).mp hl with hl | ⟨rfl, -⟩
    · exact h.clean hl
    · exact k.separator_not_mem hparse

end Kept

/-- The text a denomination is created under names its creator. -/
theorem deconstruct_getTokenDenom {creator subdenom denom : Text} {a : Bytes}
    (hparse : k.accAddressFromBech32 creator = .ok a) (h : getTokenDenom creator subdenom = .ok denom) :
    ∃ subdenom', k.deconstructDenom denom = .ok (k.addressString a, subdenom') := by
  simp only [getTokenDenom, bind_eq_ok, failIf_eq_ok, exists_const] at h
  obtain ⟨-, -, hslash, _, hvalid, h⟩ := h
  cases h
  have hparts : ([47].intercalate [moduleDenomPrefix, creator, subdenom]).splitOn 47 =
      moduleDenomPrefix :: creator :: subdenom.splitOn 47 := by
    have hjoin : [47].intercalate [moduleDenomPrefix, creator, subdenom] =
        moduleDenomPrefix ++ 47 :: (creator ++ 47 :: subdenom) := by
      simp [List.intercalate]
    rw [hjoin, List.splitOn_append_cons_self_of_not_mem (by decide +kernel),
      List.splitOn_append_cons_self_of_not_mem hslash]
  have hlen : (subdenom.splitOn 47).length ≠ 0 := by
    intro h
    exact List.splitOn_ne_nil _ _ (List.length_eq_zero_iff.mp h)
  refine ⟨[47].intercalate (subdenom.splitOn 47), ?_⟩
  simp only [Addresses.deconstructDenom, bind_eq_ok, failIf_eq_ok, exists_const, hparts]
  refine ⟨(), hvalid, ?_, ?_, a, ?_, rfl⟩
  · simp only [List.length_cons]
    omega
  · exact not_not.mpr rfl
  · simp only [List.getD_cons_succ, List.getD_cons_zero, hparse]
    rfl

theorem kept_deliver (h : k.Kept s) {d : Delivery} (hsender : d.msg.sender ≠ []) : k.Kept (k.deliver s d) := by
  have hcreated : ∀ denom, s.Created denom → (k.deliver s d).Created denom := fun _ hd => created_deliver hd d
  rcases deliver_cases s d with hsame | hrun
  · rwa [hsame]
  · obtain ⟨ctx, msg⟩ := d
    cases msg with
    | createDenom m =>
      obtain ⟨⟨_, denom⟩, hcreate, hs⟩ := map_eq_ok.mp hrun
      have hnow : (k.deliver s ⟨ctx, .createDenom m⟩).Created denom := created_of_creates ⟨m, _, rfl, hcreate⟩
      obtain ⟨htoken, ⟨a, ha⟩, hnew, l, -, hstate⟩ := createDenomMsg_ok hcreate
      obtain ⟨_, hparts⟩ := deconstruct_getTokenDenom ha htoken
      refine (h.create ha hparts (fun _ hl => absurd hnew (h.described hl)) ?_ ?_).1
      · rw [← hs, hstate]
      · rintro denom' (hd | rfl)
        · exact hcreated _ hd
        · exact hnow
    | changeAdmin m =>
      obtain ⟨hadmin, hvalid, hs⟩ := changeAdmin_ok hrun
      obtain ⟨creator, hl⟩ := h.listed_of_admin hadmin hsender
      exact h.setAuthority hl hvalid (by rw [hs]) (by rw [hs])
    | mint m =>
      obtain ⟨-, _, -, hs⟩ := mint_ok hrun
      exact h.frame (by rw [hs]) hcreated
    | burn m =>
      obtain ⟨-, _, -, hs⟩ := burn_ok hrun
      exact h.frame (by rw [hs]) hcreated
    | forceTransfer m =>
      obtain ⟨_, _, -, -, hs⟩ := forceTransferMsg_ok hrun
      exact h.frame (by rw [hs]) hcreated
    | setDenomMetadata m => exact h.frame (by rw [(setDenomMetadata_ok hrun).2]) hcreated
    | updateParams m => exact h.frame (by rw [(updateParams_ok hrun).2]) hcreated

private theorem not_listed_empty (bank : Bank) (params : Option Params) (creator denom : Text) :
    ¬ Listed ⟨bank, ∅, params⟩ creator denom := by
  simp [Listed]

theorem kept_empty (bank : Bank) (params : Option Params) : k.Kept ⟨bank, ∅, params⟩ := by
  refine ⟨?_, ?_, ?_, ?_, ?_, ?_⟩
  · intro key v hget
    simp at hget
  all_goals
    intros
    exact absurd ‹Listed _ _ _› (not_listed_empty _ _ _ _)

section Import
variable (k)

/-- The creator is the one the text of the denomination names. -/
def Names (creator denom : Text) : Prop := ∃ subdenom, k.deconstructDenom denom = .ok (creator, subdenom)

/-- The state after one denomination of a file. -/
def imported (s : State) (creator denom : Text) (m : DenomAuthorityMetadata) : State where
  bank := s.bank.setDenomMetaData (denomMetaData denom)
  store := ((s.store.set (authorityKey denom) (k.marshal ⟨creator⟩)).set (creatorKey creator denom) denom).set
    (authorityKey denom) (k.marshal m)
  params := s.params

variable {k} {creator denom : Text} {m : DenomAuthorityMetadata}

theorem initDenom_eq_ok : k.initDenom s ⟨denom, m⟩ = .ok s' ↔
    ∃ creator, k.Names creator denom ∧ m.validate k.toAddresses = .ok () ∧ s' = k.imported s creator denom m := by
  constructor
  · intro h
    obtain ⟨⟨creator, subdenom⟩, hparts, h⟩ := bind_eq_ok.mp h
    obtain ⟨s₁, hcreate, h⟩ := bind_eq_ok.mp h
    obtain ⟨-, rfl⟩ := createDenomAfterValidation_ok hcreate
    obtain ⟨hvalid, rfl⟩ := setAuthorityMetadata_ok h
    exact ⟨creator, ⟨subdenom, hparts⟩, hvalid, rfl⟩
  · rintro ⟨creator, ⟨subdenom, hparts⟩, hvalid, rfl⟩
    obtain ⟨a, ha⟩ := creator_parses hparts
    have hcreator : (DenomAuthorityMetadata.mk creator).validate k.toAddresses = .ok () := validate_creator ha
    simp only [initDenom, createDenomAfterValidation, setAuthorityMetadata, bind_eq_ok]
    exact ⟨_, hparts, _, ⟨_, ⟨_, hcreator, rfl⟩, rfl⟩, _, hvalid, rfl⟩

theorem Names.unique {creator' : Text} (h : k.Names creator denom) (h' : k.Names creator' denom) :
    creator = creator' := by
  obtain ⟨_, h⟩ := h
  obtain ⟨_, h'⟩ := h'
  rw [h] at h'
  cases h'
  rfl

theorem getAuthorityMetadata_imported (denom' : Text) : k.getAuthorityMetadata (k.imported s creator denom m) denom' =
    if denom = denom' then .ok m else k.getAuthorityMetadata s denom' := by
  let created : State := ⟨s.bank,
    (s.store.set (authorityKey denom) (k.marshal ⟨creator⟩)).set (creatorKey creator denom) denom, s.params⟩
  rw [getAuthorityMetadata_set (s := created) rfl, getAuthorityMetadata_create (s := s) rfl]
  split <;> rfl

/-- An index that names the creators still does with one more denomination. -/
theorem Kept.imported (h : k.Kept s) (hnames : ∀ creator denom, Listed s creator denom → k.Names creator denom)
    (hname : k.Names creator denom) (hm : m.validate k.toAddresses = .ok ()) :
    k.Kept (k.imported s creator denom m) ∧
    (∀ creator' denom', Listed (k.imported s creator denom m) creator' denom' → k.Names creator' denom') ∧
    ∀ creator' denom', Listed (k.imported s creator denom m) creator' denom' ↔
      Listed s creator' denom' ∨ creator' = creator ∧ denom' = denom := by
  have hsame : ∀ creator', Listed s creator' denom → creator' = creator :=
    fun creator' hl => (hnames creator' denom hl).unique hname
  obtain ⟨subdenom, hparts⟩ := id hname
  obtain ⟨a, ha⟩ := creator_parses hparts
  let created : State := ⟨s.bank.setDenomMetaData (denomMetaData denom),
    (s.store.set (authorityKey denom) (k.marshal ⟨creator⟩)).set (creatorKey creator denom) denom, s.params⟩
  have hcreated : ∀ denom', s.Created denom' ∨ denom' = denom → created.Created denom' := by
    rintro denom' (hd | rfl)
    · exact created_setDenomMetaData hd _
    · simp [created, State.Created, Bank.setDenomMetaData, denomMetaData]
  have hstore : created.store =
      (s.store.set (authorityKey denom) (k.marshal ⟨creator⟩)).set (creatorKey creator denom) denom := rfl
  obtain ⟨hkept, hlisted⟩ := h.create ha hparts hsame hstore hcreated
  have hlisted' : ∀ creator' denom', Listed (k.imported s creator denom m) creator' denom' ↔
      Listed s creator' denom' ∨ creator' = creator ∧ denom' = denom := by
    intro creator' denom'
    rw [← hlisted, Listed, Listed, Keeper.imported, getElem?_set, if_neg (creatorKey_ne_authorityKey _ _ _).symm]
  refine ⟨hkept.setAuthority ((hlisted creator denom).mpr (.inr ⟨rfl, rfl⟩)) hm rfl rfl, ?_, hlisted'⟩
  intro creator' denom' hl
  rcases (hlisted' _ _).mp hl with hl | ⟨rfl, rfl⟩
  · exact hnames _ _ hl
  · exact hname

/-- Importing listed denominations from a state whose index names the creators. -/
theorem initDenoms_run {denoms : List Text} (m : Text → DenomAuthorityMetadata) (hkept : k.Kept s)
    (hnames : ∀ creator denom, Listed s creator denom → k.Names creator denom)
    (hparts : ∀ denom ∈ denoms, ∃ creator, k.Names creator denom)
    (hm : ∀ denom ∈ denoms, (m denom).validate k.toAddresses = .ok ()) :
    ∃ s', k.initDenoms s (denoms.map (fun denom => ⟨denom, m denom⟩)) = .ok s' ∧ k.Kept s' ∧ s'.params = s.params ∧
      (∀ denom, k.getAuthorityMetadata s' denom = if denom ∈ denoms then .ok (m denom)
          else k.getAuthorityMetadata s denom) ∧
      (∀ creator denom, Listed s' creator denom ↔ Listed s creator denom ∨ denom ∈ denoms ∧ k.Names creator denom) ∧
      ∀ denom, s'.bank.denomMetaData denom =
        if denom ∈ denoms then some (denomMetaData denom) else s.bank.denomMetaData denom := by
  induction denoms generalizing s with
  | nil => exact ⟨s, rfl, hkept, rfl, by simp, by simp, by simp⟩
  | cons denom denoms ih =>
    obtain ⟨creator, hname⟩ := hparts denom List.mem_cons_self
    have hvalid := hm denom List.mem_cons_self
    obtain ⟨hkept₁, hnames₁, hlisted₁⟩ := hkept.imported hnames hname hvalid
    obtain ⟨s', hrun, hkept', hparams, hadmin, hlisted, hmeta⟩ := ih hkept₁ hnames₁
      (fun d hd => hparts d (List.mem_cons_of_mem _ hd)) (fun d hd => hm d (List.mem_cons_of_mem _ hd))
    refine ⟨s', ?_, hkept', hparams, fun denom' => ?_, fun creator' denom' => ?_, fun denom' => ?_⟩
    · exact bind_eq_ok.mpr ⟨_, initDenom_eq_ok.mpr ⟨creator, hname, hvalid, rfl⟩, hrun⟩
    · rw [hadmin, getAuthorityMetadata_imported]
      by_cases hd : denom' ∈ denoms
      · simp [hd]
      · by_cases he : denom' = denom
        · simp [he]
        · simp [hd, he, Ne.symm he]
    · rw [hlisted, hlisted₁, List.mem_cons]
      constructor
      · rintro ((hl | ⟨rfl, rfl⟩) | ⟨hd, hn⟩)
        · exact .inl hl
        · exact .inr ⟨.inl rfl, hname⟩
        · exact .inr ⟨.inr hd, hn⟩
      · rintro (hl | ⟨rfl | hd, hn⟩)
        · exact .inl (.inl hl)
        · exact .inl (.inr ⟨hn.unique hname, rfl⟩)
        · exact .inr ⟨hd, hn⟩
    · rw [hmeta]
      by_cases hd : denom' ∈ denoms
      · simp [hd]
      · by_cases he : denom' = denom
        · simp [he, imported, Bank.setDenomMetaData, denomMetaData]
        · simp [hd, he, imported, Bank.setDenomMetaData, denomMetaData]

/-- Whatever a file holds, the state it was imported to is kept. -/
theorem kept_initDenoms {genDenoms : List GenesisDenom} (hkept : k.Kept s)
    (hnames : ∀ creator denom, Listed s creator denom → k.Names creator denom)
    (h : k.initDenoms s genDenoms = .ok s') : k.Kept s' ∧ s'.params = s.params := by
  induction genDenoms generalizing s with
  | nil =>
    cases h
    exact ⟨hkept, rfl⟩
  | cons g genDenoms ih =>
    obtain ⟨s₁, hone, h⟩ := bind_eq_ok.mp h
    obtain ⟨creator, hname, hvalid, rfl⟩ := initDenom_eq_ok.mp hone
    obtain ⟨hkept₁, hnames₁, -⟩ := hkept.imported hnames hname hvalid
    obtain ⟨hkept', hparams⟩ := ih hkept₁ hnames₁ h
    exact ⟨hkept', hparams⟩

end Import

/-- The states of a chain: a genesis file is imported to a bank, and messages with named senders are delivered. -/
inductive Reached (k : Keeper) : State → Prop where
  | start {bank : Bank} {genState : GenesisState} {s : State} (h : k.start bank genState = .ok s) : Reached k s
  | deliver {s : State} (d : Delivery) (hsender : d.msg.sender ≠ []) (h : Reached k s) : Reached k (k.deliver s d)

theorem params_deliver (d : Delivery) (h : ∃ p, s.params = some p ∧ p.validate = .ok ()) :
    ∃ p, (k.deliver s d).params = some p ∧ p.validate = .ok () := by
  rcases deliver_cases s d with hsame | hrun
  · rwa [hsame]
  · obtain ⟨ctx, msg⟩ := d
    cases msg with
    | createDenom m =>
      obtain ⟨⟨_, denom⟩, hcreate, hs⟩ := map_eq_ok.mp hrun
      obtain ⟨-, -, -, l, -, hstate⟩ := createDenomMsg_ok hcreate
      rw [← hs, hstate]
      exact h
    | changeAdmin m =>
      rw [(changeAdmin_ok hrun).2.2]
      exact h
    | mint m =>
      obtain ⟨-, _, -, hs⟩ := mint_ok hrun
      rwa [hs]
    | burn m =>
      obtain ⟨-, _, -, hs⟩ := burn_ok hrun
      rwa [hs]
    | forceTransfer m =>
      obtain ⟨_, _, -, -, hs⟩ := forceTransferMsg_ok hrun
      rwa [hs]
    | setDenomMetadata m =>
      rw [(setDenomMetadata_ok hrun).2]
      exact h
    | updateParams m =>
      obtain ⟨hvalid, hs⟩ := updateParams_ok hrun
      rw [hs]
      exact ⟨_, rfl, hvalid⟩

theorem Reached.kept (h : Reached k s) : k.Kept s ∧ ∃ p, s.params = some p ∧ p.validate = .ok () := by
  induction h with
  | start h =>
    obtain ⟨s₁, hparams, hdenoms⟩ := bind_eq_ok.mp h
    obtain ⟨hvalid, rfl⟩ := setParams_ok hparams
    obtain ⟨hkept, hp⟩ :=
      kept_initDenoms (kept_empty _ _) (fun _ _ hl => absurd hl (not_listed_empty _ _ _ _)) hdenoms
    exact ⟨hkept, _, hp, hvalid⟩
  | deliver d hsender h ih => exact ⟨kept_deliver ih.1 hsender, params_deliver d ih.2⟩

/-- What an export and import has to bring back. -/
structure Same (k : Keeper) (s s' : State) : Prop where
  authority : ∀ denom, k.getAuthorityMetadata s' denom = k.getAuthorityMetadata s denom
  creators : ∀ creator denom, denom ∈ getDenomsFromCreator s' creator ↔ denom ∈ getDenomsFromCreator s creator
  params : s'.params = s.params
  metadata : ∀ denom, s'.bank.getDenomMetaData denom = s.bank.getDenomMetaData denom

/-- The description is the one of the creation, and the creator is spelled as the address prints. -/
def Exportable (k : Keeper) (s : State) : Prop := ∀ creator denom, denom ∈ getDenomsFromCreator s creator →
  s.bank.getDenomMetaData denom = some (denomMetaData denom) ∧ k.Names creator denom

/-- The authority metadata an export finds. -/
def authorityOf (k : Keeper) (s : State) (denom : Text) : DenomAuthorityMetadata :=
  ((k.getAuthorityMetadata s denom).toOption).getD ⟨[]⟩

theorem exportDenoms_eq {denoms : List Text}
    (h : ∀ denom ∈ denoms, k.getAuthorityMetadata s denom = .ok (k.authorityOf s denom)) :
    k.exportDenoms s denoms = .ok (denoms.map (fun denom => ⟨denom, k.authorityOf s denom⟩)) := by
  induction denoms with
  | nil => rfl
  | cons denom denoms ih =>
    rw [exportDenoms, h denom List.mem_cons_self, ih (fun d hd => h d (List.mem_cons_of_mem _ hd))]
    rfl

/-- A listed denomination has an admin, which the export reads. -/
private theorem Kept.authorityOf (h : k.Kept s) {denom : Text} (hd : denom ∈ getAllDenoms s) :
    k.getAuthorityMetadata s denom = .ok (k.authorityOf s denom) ∧
      (k.authorityOf s denom).validate k.toAddresses = .ok () := by
  obtain ⟨creator, hl⟩ := h.mem_getAllDenoms.mp hd
  obtain ⟨m, hm, hmvalid⟩ := h.authorityMetadata hl
  have hof : k.authorityOf s denom = m := by
    rw [Keeper.authorityOf, hm]
    rfl
  exact ⟨by rw [hof, hm], by rw [hof, hmvalid]⟩

/-- And what is not listed has none. -/
private theorem Kept.no_authority (h : k.Kept s) {denom : Text} (hd : denom ∉ getAllDenoms s) :
    s.store[authorityKey denom]? = none := by
  cases hget : s.store[authorityKey denom]? with
  | none => rfl
  | some v =>
    rcases h.entries _ v hget with ⟨denom', m, hkey, -, -, hl⟩ | ⟨creator', hkey⟩
    · rw [authorityKey_inj hkey] at hd
      exact absurd (h.mem_getAllDenoms.mpr hl) hd
    · exact absurd hkey.symm (creatorKey_ne_authorityKey _ _ _)

/-- A kept state is imported again, with the default descriptions and the creators its texts name. -/
theorem Kept.reimport (h : k.Kept s) {p : Params} (hp : s.params = some p) (hvalid : p.validate = .ok ()) :
    ∃ s', k.reimport s = .ok s' ∧ s'.params = s.params ∧
      (∀ denom, k.getAuthorityMetadata s' denom = k.getAuthorityMetadata s denom) ∧
      (∀ creator denom, denom ∈ getDenomsFromCreator s' creator ↔
        (∃ creator', Listed s creator' denom) ∧ k.Names creator denom) ∧
      ∀ denom, s'.bank.denomMetaData denom =
        if denom ∈ getAllDenoms s then some (denomMetaData denom) else s.bank.denomMetaData denom := by
  have hparts : ∀ denom ∈ getAllDenoms s, ∃ creator, k.Names creator denom := by
    intro denom hd
    obtain ⟨creator, hl⟩ := h.mem_getAllDenoms.mp hd
    obtain ⟨⟨creator', subdenom⟩, hparts⟩ := h.parses hl
    exact ⟨creator', subdenom, hparts⟩
  obtain ⟨s', hrun, hkept', hparams, hauth, hlisted, hmeta⟩ :=
    initDenoms_run (s := ⟨s.bank, ∅, some p⟩) (k.authorityOf s) (kept_empty _ _)
      (fun _ _ hl => absurd hl (not_listed_empty _ _ _ _)) hparts (fun _ hd => (h.authorityOf hd).2)
  refine ⟨s', ?_, hparams.trans hp.symm, ?_, ?_, hmeta⟩
  · have hexport : k.exportGenesis s = .ok ⟨p, (getAllDenoms s).map (fun denom => ⟨denom, k.authorityOf s denom⟩)⟩ := by
      rw [exportGenesis, exportDenoms_eq (fun _ hd => (h.authorityOf hd).1), getParams, hp]
      rfl
    have hset : setParams ⟨s.bank, ∅, none⟩ p = .ok ⟨s.bank, ∅, some p⟩ := by
      rw [setParams, hvalid]
      rfl
    exact bind_eq_ok.mpr ⟨_, hexport, bind_eq_ok.mpr ⟨_, hset, hrun⟩⟩
  · intro denom
    rw [hauth]
    split
    · rename_i hd
      exact (h.authorityOf hd).1.symm
    · -- what is not listed has no admin on either side
      rename_i hd
      have hempty : (⟨s.bank, ∅, some p⟩ : State).store.get (authorityKey denom) = [] := get_empty _
      rw [getAuthorityMetadata, getAuthorityMetadata, hempty, PrefixStore.get, h.no_authority hd, Option.getD_none]
  · intro creator denom
    rw [mem_getDenomsFromCreator, ← h.mem_getAllDenoms]
    constructor
    · rintro ⟨v, hget⟩
      exact ((hlisted creator denom).mp (hkept'.listed_of_mem hget)).resolve_left (not_listed_empty _ _ _ _)
    · intro hl
      exact ⟨denom, (hlisted creator denom).mpr (.inr hl)⟩

end Keeper

open Keeper in
/-- An export and import of a chain's state loses nothing exactly if every denomination still has the description of
its creation and every creator was spelled as its address prints. -/
theorem genesis_lossless_iff (k : Keeper) {s : State} (h : Reached k s) :
    (∃ s', k.reimport s = .ok s' ∧ k.Same s s') ↔ k.Exportable s := by
  obtain ⟨hkept, p, hp, hvalid⟩ := h.kept
  obtain ⟨s', hrun, hparams, hauth, hindex, hmeta⟩ := hkept.reimport hp hvalid
  constructor
  · rintro ⟨_, hrun', hsame⟩
    cases hrun.symm.trans hrun'
    intro creator denom hd
    obtain ⟨v, hget⟩ := mem_getDenomsFromCreator.mp hd
    have hall := hkept.mem_getAllDenoms.mpr ⟨creator, hkept.listed_of_mem hget⟩
    refine ⟨?_, ((hindex creator denom).mp ((hsame.creators creator denom).mpr hd)).2⟩
    rw [← hsame.metadata, Bank.getDenomMetaData, hmeta, if_pos hall]
  · intro hexp
    refine ⟨s', hrun, hauth, ?_, hparams, ?_⟩
    · intro creator denom
      rw [hindex]
      constructor
      · rintro ⟨⟨creator', hl⟩, hname⟩
        have hmem := mem_getDenomsFromCreator.mpr ⟨_, hl⟩
        rwa [hname.unique (hexp creator' denom hmem).2]
      · intro hd
        obtain ⟨v, hget⟩ := mem_getDenomsFromCreator.mp hd
        exact ⟨⟨creator, hkept.listed_of_mem hget⟩, (hexp creator denom hd).2⟩
    · intro denom
      rw [Bank.getDenomMetaData, hmeta]
      split
      · rename_i hall
        obtain ⟨creator, hl⟩ := hkept.mem_getAllDenoms.mp hall
        exact (hexp creator denom (mem_getDenomsFromCreator.mpr ⟨_, hl⟩)).1.symm
      · rfl

def createGold (sender : Text) : Delivery := deliveryOf (.createDenom ⟨sender, text "gold"⟩)

def plainGold : State := run sampleKeeper.deliver emptyState [createGold (terpText userA), mintGold]

/-- Gold that was created and minted comes back from the genesis file. -/
theorem plain_gold_survives : ∃ s', sampleKeeper.reimport plainGold = .ok s' ∧ sampleKeeper.Same plainGold s' := by
  have hstart : sampleKeeper.start emptyState.bank ⟨⟨[], 0⟩, []⟩ = .ok emptyState := rfl
  have hreached : Keeper.Reached sampleKeeper plainGold :=
    .deliver mintGold (by decide +kernel) (.deliver (createGold (terpText userA)) (by decide +kernel) (.start hstart))
  refine (genesis_lossless_iff sampleKeeper hreached).mpr ?_
  have hkept := hreached.kept.1
  intro creator denom hd
  obtain ⟨v, hget⟩ := Keeper.mem_getDenomsFromCreator.mp hd
  have hlisted := hkept.listed_of_mem hget
  have hall := hkept.mem_getAllDenoms.mpr ⟨creator, hlisted⟩
  rw [show Keeper.getAllDenoms plainGold = [gold] by decide +kernel, List.mem_singleton] at hall
  subst hall
  have howner : Keeper.Listed plainGold (terpText userA) gold := by
    unfold Keeper.Listed
    decide +kernel
  rw [hkept.unique hlisted howner]
  exact ⟨by decide +kernel, text "gold", by decide +kernel⟩

def describeGold : Delivery :=
  deliveryOf (.setDenomMetadata ⟨terpText userA, { Keeper.denomMetaData gold with symbol := text "GLD" }⟩)

/-- The symbol that the admin set is gone after an import, and so is the denomination of a creator who wrote the own
address in upper case. -/
theorem import_loses_symbol_and_creator :
    let described := run sampleKeeper.deliver emptyState [createGold (terpText userA), describeGold]
    let creator := Bech32.upper (terpText userA)
    let shouted := sampleKeeper.deliver emptyState (createGold creator)
    (described.bank.getDenomMetaData gold).map Metadata.symbol = some (text "GLD") ∧
    (sampleKeeper.reimport described).map (fun s => (s.bank.getDenomMetaData gold).map Metadata.symbol) =
      .ok (some gold) ∧
    Keeper.getDenomsFromCreator shouted creator = [goldOf creator] ∧
    (sampleKeeper.reimport shouted).map (fun s => Keeper.getDenomsFromCreator s creator) = .ok [] := by
  decide +kernel

end Terpz.Tokenfactory
