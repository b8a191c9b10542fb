import Mathlib.Data.Set.List
import Terpz.Lib.Bech32
import Terpz.Lib.Protobuf
import Terpz.SmartAccount.Keeper.Registry

/-! The registry holds exactly what was added and not removed, under ids that are never given out twice, and comes
back from an export unchanged. -/
namespace Terpz.SmartAccount
open Lib PrefixStore

section Keys

theorem splitOn_buildKey (es : List Text) (h : ∀ e ∈ es, 124 ∉ e) (t : Bytes) :
    (buildKey es ++ t).splitOn 124 = es ++ t.splitOn 124 := by
  induction es with
  | nil => rfl
  | cons e es ih =>
    have hjoin : buildKey (e :: es) ++ t = e ++ 124 :: (buildKey es ++ t) := by
      have hsep : keySeparator = [124] := by decide +kernel
      rw [buildKey, List.flatMap_cons, ← buildKey, hsep]
      simp
    rw [hjoin, List.splitOn_append_cons_self_of_not_mem (h e List.mem_cons_self),
      ih (fun e' he' => h e' (List.mem_cons_of_mem _ he')), List.cons_append]

theorem separator_not_mem_decimal (n : Nat) : 124 ∉ decimal n := by
  intro h
  have hdigit := digit_of_mem_decimal h
  simp at hdigit

end Keys

namespace Registrar
variable {ω : Type} {k : Registrar ω}

abbrev Entry (k : Registrar ω) := k.Address × AccountAuthenticator

def entryKey (e : k.Entry) : Bytes := k.recordKey e.1.bytes e.2.id

theorem splitOn_recordKey (a : k.Address) (id : UInt64) :
    (k.recordKey a.bytes id).splitOn 124 =
        [accountAuthenticatorsPrefix, k.addressString a.bytes, decimal id.toNat, []] := by
  have h := splitOn_buildKey [accountAuthenticatorsPrefix, k.addressString a.bytes, decimal id.toNat] ?_ []
  · rwa [List.append_nil, List.splitOn_nil] at h
  · simp only [List.mem_cons, List.not_mem_nil, or_false, forall_eq_or_imp, forall_eq]
    exact ⟨by decide +kernel, a.no_separator, separator_not_mem_decimal _⟩

theorem address_eq {a a' : k.Address} (h : k.addressString a.bytes = k.addressString a'.bytes) : a = a' := by
  have hbytes : a.bytes = a'.bytes := by
    have hparse := a.parses
    rw [h, a'.parses] at hparse
    exact (Except.ok.inj hparse).symm
  cases a
  cases a'
  cases hbytes
  rfl

theorem recordKey_inj {a a' : k.Address} {id id' : UInt64} (h : k.recordKey a.bytes id = k.recordKey a'.bytes id') :
    a = a' ∧ id = id' := by
  have hsplit := congrArg (List.splitOn 124) h
  rw [splitOn_recordKey, splitOn_recordKey] at hsplit
  simp only [List.cons.injEq, and_true, true_and] at hsplit
  exact ⟨address_eq hsplit.1, UInt64.toNat_inj.mp (decimal_injective hsplit.2)⟩

/-- The scan of an account meets the keys of that account only. -/
theorem keyAccount_prefix_iff {a a' : k.Address} {id : UInt64} :
    keyAccount (k.addressString a.bytes) <+: k.recordKey a'.bytes id ↔ a = a' := by
  constructor
  · rintro ⟨t, ht⟩
    have hsplit := congrArg (List.splitOn 124) ht
    rw [splitOn_recordKey, keyAccount, splitOn_buildKey] at hsplit
    · simp only [List.cons_append, List.nil_append, List.cons.injEq, true_and] at hsplit
      exact address_eq hsplit.1
    · simp only [List.mem_cons, List.not_mem_nil, or_false, forall_eq_or_imp, forall_eq]
      exact ⟨by decide +kernel, a.no_separator⟩
  · rintro rfl
    refine ⟨decimal id.toNat ++ keySeparator, ?_⟩
    simp [recordKey, keyAccountId, keyAccount, buildKey]

theorem prefixId_recordKey (a : k.Address) (id : UInt64) :
    keyAccountAuthenticatorsPrefixId <+: k.recordKey a.bytes id :=
  ⟨k.addressString a.bytes ++ keySeparator ++ decimal id.toNat ++ keySeparator,
    by simp [recordKey, keyAccountId, keyAccountAuthenticatorsPrefixId, buildKey]⟩

theorem prefixId_keyAccount (a : Text) : keyAccountAuthenticatorsPrefixId <+: keyAccount a :=
  ⟨a ++ keySeparator, by simp [keyAccount, keyAccountAuthenticatorsPrefixId, buildKey]⟩

theorem not_prefixId_next : ¬ keyAccountAuthenticatorsPrefixId <+: keyNextAccountAuthenticatorId := by
  decide +kernel

/-- Below the prefix of the records the store has these entries and no others. -/
def Holds (st : PrefixStore UInt8 UInt8) (L : List k.Entry) : Prop :=
  ∀ key bz, keyAccountAuthenticatorsPrefixId <+: key →
    (st[key]? = some bz ↔ ∃ e ∈ L, key = entryKey e ∧ bz = k.marshal e.2)

theorem Holds.empty : Holds (k := k) ∅ [] := by
  intro key bz _
  simp

theorem Holds.set_next {st : PrefixStore UInt8 UInt8} {L : List k.Entry} (h : Holds st L) (v : Bytes) :
    Holds (st.set keyNextAccountAuthenticatorId v) L := by
  intro key bz hkey
  have hne : keyNextAccountAuthenticatorId ≠ key := by
    rintro rfl
    exact not_prefixId_next hkey
  rw [getElem?_set, if_neg hne]
  exact h key bz hkey

theorem Holds.insert {st : PrefixStore UInt8 UInt8} {L : List k.Entry} (h : Holds st L) (e : k.Entry)
    (hfresh : ∀ e' ∈ L, e'.2.id ≠ e.2.id) : Holds (st.set (entryKey e) (k.marshal e.2)) (L ++ [e]) := by
  intro key bz hkey
  rw [getElem?_set]
  by_cases heq : entryKey e = key
  · subst heq
    rw [if_pos rfl]
    constructor
    · rintro ⟨⟩
      exact ⟨e, by simp, rfl, rfl⟩
    · rintro ⟨e', he', hkey', rfl⟩
      rcases List.mem_append.mp he' with he' | he'
      · exact absurd (recordKey_inj hkey').2.symm (hfresh e' he')
      · rw [List.mem_singleton.mp he']
  · rw [if_neg heq, h key bz hkey]
    constructor
    · rintro ⟨e', he', hrest⟩
      exact ⟨e', List.mem_append_left _ he', hrest⟩
    · rintro ⟨e', he', hkey', hbz⟩
      rcases List.mem_append.mp he' with he' | he'
      · exact ⟨e', he', hkey', hbz⟩
      · rw [List.mem_singleton.mp he'] at hkey'
        exact absurd hkey'.symm heq

theorem Holds.erase {st : PrefixStore UInt8 UInt8} {L : List k.Entry} (h : Holds st L) (a : k.Address) (id : UInt64) :
    Holds (st.delete (k.recordKey a.bytes id)) (L.filter (fun e => ¬ (e.1.bytes = a.bytes ∧ e.2.id = id))) := by
  intro key bz hkey
  rw [getElem?_delete]
  by_cases heq : k.recordKey a.bytes id = key
  · subst heq
    rw [if_pos rfl]
    constructor
    · rintro ⟨⟩
    · rintro ⟨e, he, hkey', -⟩
      obtain ⟨ha, hid⟩ := recordKey_inj hkey'
      simp [ha, hid] at he
  · rw [if_neg heq, h key bz hkey]
    constructor
    · rintro ⟨e, he, hkey', hbz⟩
      refine ⟨e, List.mem_filter.mpr ⟨he, ?_⟩, hkey', hbz⟩
      simp only [decide_eq_true_eq]
      rintro ⟨ha, hid⟩
      exact heq (by rw [hkey', entryKey, ha, hid])
    · rintro ⟨e, he, hrest⟩
      exact ⟨e, (List.mem_filter.mp he).1, hrest⟩

section Scan
variable {st : PrefixStore UInt8 UInt8} {L : List k.Entry}

/-- A key and value as a scan meets them. -/
def stored (e : k.Entry) : Bytes × Bytes := (entryKey e, k.marshal e.2)

theorem stored_injective : Function.Injective (stored (k := k)) := by
  rintro ⟨a, r⟩ ⟨a', r'⟩ h
  obtain ⟨hkey, hvalue⟩ := Prod.mk.inj h
  obtain ⟨rfl, -⟩ := recordKey_inj hkey
  have hdecode := k.unmarshal_marshal r
  rw [show k.marshal r = k.marshal r' from hvalue, k.unmarshal_marshal] at hdecode
  rw [Except.ok.inj hdecode]

/-- A scan below the prefix of the records meets the entries whose keys it covers. -/
theorem Holds.iteratePrefix (h : Holds st L) (hnodup : L.Nodup) {p : Bytes}
    (hp : keyAccountAuthenticatorsPrefixId <+: p) :
    ∃ es : List k.Entry, st.iteratePrefix p = es.map stored ∧
      es.Perm (L.filter (fun e => p.isPrefixOf (entryKey e))) := by
  have hmem : ∀ x, x ∈ st.iteratePrefix p ↔ ∃ e ∈ L, p <+: entryKey e ∧ x = stored e := by
    rintro ⟨key, bz⟩
    rw [mem_iteratePrefix]
    constructor
    · rintro ⟨hunder, hget⟩
      obtain ⟨e, he, rfl, rfl⟩ := (h key bz (hp.trans hunder)).mp hget
      exact ⟨e, he, hunder, rfl⟩
    · rintro ⟨e, he, hunder, hx⟩
      cases hx
      exact ⟨hunder, (h _ _ (hp.trans hunder)).mpr ⟨e, he, rfl, rfl⟩⟩
  have hrange : st.iteratePrefix p ∈ Set.range (List.map (stored (k := k))) := by
    rw [Set.range_list_map]
    intro x hx
    obtain ⟨e, -, -, rfl⟩ := (hmem x).mp hx
    exact ⟨e, rfl⟩
  obtain ⟨es, hes⟩ := hrange
  have hes_nodup : es.Nodup := by
    have h := iteratePrefix_nodup st p
    rw [← hes] at h
    exact h.of_map _
  refine ⟨es, hes.symm, (List.perm_ext_iff_of_nodup hes_nodup (hnodup.filter _)).mpr (fun e => ?_)⟩
  have he : e ∈ es ↔ stored e ∈ st.iteratePrefix p := by
    rw [← hes, List.mem_map_of_injective stored_injective]
  rw [he, hmem, List.mem_filter, List.isPrefixOf_iff_prefix]
  constructor
  · rintro ⟨e', he', hunder, heq⟩
    cases stored_injective heq
    exact ⟨he', hunder⟩
  · rintro ⟨he, hunder⟩
    exact ⟨e, he, hunder, rfl⟩

theorem gatherValues_stored (es : List k.Entry) : k.gatherValues (es.map stored) = .ok (es.map Prod.snd) := by
  induction es with
  | nil => rfl
  | cons e es ih =>
    rw [List.map_cons, stored, gatherValues, k.unmarshal_marshal, ih]
    rfl

/-- The records of the file one by one, with their addresses. -/
def listed (data : List AuthenticatorData) : List (Text × AccountAuthenticator) :=
  data.flatMap (fun d => d.authenticators.map (fun r => (d.address, r)))

theorem listed_append (data data' : List AuthenticatorData) : listed (data ++ data') = listed data ++ listed data' :=
  List.flatMap_append

/-- Grouping changes neither the records nor their order. -/
theorem listed_appendData (data : List AuthenticatorData) (address : Text) (record : AccountAuthenticator) :
    listed (appendData data address record) = listed data ++ [(address, record)] := by
  unfold appendData
  cases hlast : data.getLast? with
  | none =>
    rw [listed_append]
    rfl
  | some last =>
    by_cases hne : last.address ≠ address
    · simp only [if_pos hne]
      rw [listed_append]
      rfl
    · simp only [if_neg hne]
      have hdata : data = data.dropLast ++ [last] := (List.dropLast_append_getLast? last hlast).symm
      rw [listed_append]
      conv_rhs => rw [hdata, listed_append]
      simp [listed, not_not.mp hne]

/-- An address of the file is one that was met. -/
theorem address_appendData {data : List AuthenticatorData} {address : Text} {record : AccountAuthenticator}
    {d : AuthenticatorData} (hd : d ∈ appendData data address record) :
    d.address = address ∨ ∃ d' ∈ data, d'.address = d.address := by
  unfold appendData at hd
  cases hlast : data.getLast? with
  | none =>
    rw [hlast, List.mem_append, List.mem_singleton] at hd
    rcases hd with hd | rfl
    · exact .inr ⟨d, hd, rfl⟩
    · exact .inl rfl
  | some last =>
    by_cases hne : last.address ≠ address
    · simp only [hlast, if_pos hne, List.mem_append, List.mem_singleton] at hd
      rcases hd with hd | rfl
      · exact .inr ⟨d, hd, rfl⟩
      · exact .inl rfl
    · simp only [hlast, if_neg hne, List.mem_append, List.mem_singleton] at hd
      rcases hd with hd | rfl
      · exact .inr ⟨d, (List.dropLast_sublist data).subset hd, rfl⟩
      · exact .inl (not_not.mp hne)

/-- The file lists the entries in the order of the scan, under their printed addresses. -/
theorem parseEntries_stored (es : List k.Entry) (data : List AuthenticatorData)
    (hdata : ∀ d ∈ data, ∃ a : k.Address, d.address = k.addressString a.bytes) :
    ∃ out, k.parseEntries data (es.map stored) = .ok out ∧
      listed out = listed data ++ es.map (fun e => (k.addressString e.1.bytes, e.2)) ∧
      ∀ d ∈ out, ∃ a : k.Address, d.address = k.addressString a.bytes := by
  induction es generalizing data with
  | nil => exact ⟨data, rfl, by simp, hdata⟩
  | cons e es ih =>
    have hstep : ∀ d ∈ appendData data (k.addressString e.1.bytes) e.2,
        ∃ a : k.Address, d.address = k.addressString a.bytes := by
      intro d hd
      rcases address_appendData hd with heq | ⟨d', hd', heq⟩
      · exact ⟨e.1, heq⟩
      · rw [← heq]
        exact hdata d' hd'
    obtain ⟨out, hout, hlisted, haddr⟩ := ih _ hstep
    refine ⟨out, ?_, ?_, haddr⟩
    · rw [List.map_cons, stored, parseEntries, k.unmarshal_marshal, entryKey, splitOn_recordKey]
      exact hout
    · rw [hlisted, listed_appendData, List.append_assoc, List.map_cons, List.singleton_append]

end Scan

section Import
variable {w : ω} {st : PrefixStore UInt8 UInt8}

/-- The type is registered and its hook accepts the configuration. -/
def Accepted (k : Registrar ω) (w : ω) (account : Bytes) (record : AccountAuthenticator) : Prop :=
  ∃ impl, k.getAuthenticatorByType record.type = some impl ∧
    (impl.onAuthenticatorAdded account record.config (decimal record.id.toNat) w).2 = .ok ()

theorem addAuthenticatorWithId_eq {account : Bytes} {record : AccountAuthenticator} (h : k.Accepted w account record) :
    k.addAuthenticatorWithId account record ⟨st, w⟩ =
      (⟨st.set (k.recordKey account record.id) (k.marshal record), w⟩, .ok ()) := by
  obtain ⟨impl, himpl, hok⟩ := h
  unfold addAuthenticatorWithId
  rw [himpl]
  have hrun : tryHook (impl.onAuthenticatorAdded account record.config (decimal record.id.toNat)) ⟨st, w⟩ =
      (⟨st, w⟩, .ok ()) := Prod.ext rfl hok
  exact Attempt.bind_apply_ok hrun _

theorem accepted_of_addAuthenticatorWithId {account : Bytes} {record : AccountAuthenticator}
    (h : (k.addAuthenticatorWithId account record ⟨st, w⟩).2 = .ok ()) : k.Accepted w account record := by
  unfold addAuthenticatorWithId at h
  cases himpl : k.getAuthenticatorByType record.type with
  | none =>
    rw [himpl] at h
    cases h
  | some impl =>
    rw [himpl] at h
    obtain ⟨_, hok, -⟩ := Attempt.bind_eq_ok.mp h
    exact ⟨impl, himpl, hok⟩

/-- The store after records were set one by one. -/
def setAll (k : Registrar ω) (st : PrefixStore UInt8 UInt8) (rs : List (Text × AccountAuthenticator)) :
    PrefixStore UInt8 UInt8 :=
  rs.foldl (fun st r => st.set (keyAccountId r.1 r.2.id) (k.marshal r.2)) st

theorem addRecords_eq {account : Bytes} {records : List AccountAuthenticator}
    (h : ∀ r ∈ records, k.Accepted w account r) :
    k.addRecords account records ⟨st, w⟩ =
      (⟨k.setAll st (records.map (fun r => (k.addressString account, r))), w⟩, .ok ()) := by
  induction records generalizing st with
  | nil => rfl
  | cons r records ih =>
    rw [addRecords, Attempt.bind_apply_ok (addAuthenticatorWithId_eq (h r List.mem_cons_self)),
      ih (fun r' hr' => h r' (List.mem_cons_of_mem _ hr'))]
    rfl

/-- The import of a file with known addresses whose configurations are all accepted. -/
theorem addData_eq {data : List AuthenticatorData}
    (haddr : ∀ d ∈ data, ∃ a : k.Address, d.address = k.addressString a.bytes)
    (h : ∀ (a : k.Address) r, (k.addressString a.bytes, r) ∈ listed data → k.Accepted w a.bytes r) :
    k.addData data ⟨st, w⟩ = (⟨k.setAll st (listed data), w⟩, .ok ()) := by
  induction data generalizing st with
  | nil => rfl
  | cons d data ih =>
    obtain ⟨a, ha⟩ := haddr d List.mem_cons_self
    have hparse : (Attempt.lift (k.accAddressFromBech32 d.address) : Attempt (Registry ω) Err Bytes) ⟨st, w⟩ =
        (⟨st, w⟩, .ok a.bytes) := by
      rw [ha, a.parses]
      rfl
    have hlisted : listed (d :: data) = d.authenticators.map (fun r => (k.addressString a.bytes, r)) ++
        listed data := by
      rw [← ha]
      rfl
    have haccept : ∀ r ∈ d.authenticators, k.Accepted w a.bytes r := by
      intro r hr
      apply h a r
      rw [hlisted]
      exact List.mem_append_left _ (List.mem_map_of_mem hr)
    rw [addData, Attempt.bind_apply_ok hparse, Attempt.bind_apply_ok (addRecords_eq haccept), ih]
    · rw [hlisted, setAll, setAll, setAll, List.foldl_append]
    · exact fun d' hd' => haddr d' (List.mem_cons_of_mem _ hd')
    · intro a' r' hr'
      apply h a' r'
      rw [hlisted]
      exact List.mem_append_right _ hr'

/-- A hook that refuses stops the import. -/
theorem accepted_of_addRecords {account : Bytes} {records : List AccountAuthenticator}
    (h : (k.addRecords account records ⟨st, w⟩).2 = .ok ()) : ∀ r ∈ records, k.Accepted w account r := by
  induction records generalizing st with
  | nil => exact fun r hr => absurd hr List.not_mem_nil
  | cons r records ih =>
    obtain ⟨_, hfirst, hrest⟩ := Attempt.bind_eq_ok.mp h
    have haccept := accepted_of_addAuthenticatorWithId hfirst
    rw [addAuthenticatorWithId_eq haccept] at hrest
    intro r' hr'
    rcases List.mem_cons.mp hr' with rfl | hr'
    · exact haccept
    · exact ih hrest r' hr'

theorem accepted_of_addData {data : List AuthenticatorData}
    (haddr : ∀ d ∈ data, ∃ a : k.Address, d.address = k.addressString a.bytes)
    (h : (k.addData data ⟨st, w⟩).2 = .ok ()) (a : k.Address) (r : AccountAuthenticator)
    (hr : (k.addressString a.bytes, r) ∈ listed data) : k.Accepted w a.bytes r := by
  induction data generalizing st with
  | nil => cases hr
  | cons d data ih =>
    obtain ⟨a', ha'⟩ := haddr d List.mem_cons_self
    obtain ⟨account, hparse, h⟩ := Attempt.bind_eq_ok.mp h
    obtain ⟨_, hrecords, hrest⟩ := Attempt.bind_eq_ok.mp h
    have haccount : account = a'.bytes := by
      have hparse' : k.accAddressFromBech32 d.address = .ok account := hparse
      rw [ha', a'.parses] at hparse'
      exact (Except.ok.inj hparse').symm
    subst haccount
    have haccept := accepted_of_addRecords hrecords
    have hrun : k.addRecords a'.bytes d.authenticators ⟨st, w⟩ = _ := addRecords_eq haccept
    rcases List.mem_append.mp (show (k.addressString a.bytes, r) ∈
        d.authenticators.map (fun r => (d.address, r)) ++ listed data from hr) with hr | hr
    · obtain ⟨r', hr', heq⟩ := List.mem_map.mp hr
      obtain ⟨haddress, rfl⟩ := Prod.mk.inj heq
      rw [ha'] at haddress
      cases address_eq haddress
      exact haccept _ hr'
    · have hstart : (Attempt.lift (k.accAddressFromBech32 d.address) : Attempt (Registry ω) Err Bytes) ⟨st, w⟩ =
          (⟨st, w⟩, k.accAddressFromBech32 d.address) := rfl
      rw [hstart, hrun] at hrest
      exact ih (fun d' hd' => haddr d' (List.mem_cons_of_mem _ hd')) hrest hr

end Import

/-- Setting entries with new ids one by one adds exactly them. -/
theorem Holds.setAll {st : PrefixStore UInt8 UInt8} {L : List k.Entry} (h : Holds st L) (es : List k.Entry)
    (hnodup : ((L ++ es).map (fun e => e.2.id)).Nodup) :
    Holds (k.setAll st (es.map (fun e => (k.addressString e.1.bytes, e.2)))) (L ++ es) := by
  induction es generalizing st L with
  | nil => simpa [Registrar.setAll] using h
  | cons e es ih =>
    have hsplit : L ++ e :: es = (L ++ [e]) ++ es := by simp
    have hfresh : ∀ e' ∈ L, e'.2.id ≠ e.2.id := by
      intro e' he' heq
      rw [List.map_append, List.nodup_append] at hnodup
      exact hnodup.2.2 _ (List.mem_map_of_mem he') _ (List.mem_map_of_mem List.mem_cons_self) heq
    rw [hsplit] at hnodup ⊢
    exact ih (h.insert e hfresh) hnodup

/-- The id that the next authenticator gets. -/
def nextId (k : Registrar ω) (st : PrefixStore UInt8 UInt8) : Except Err UInt64 :=
  match st[keyNextAccountAuthenticatorId]? with
  | none => .ok firstAuthenticatorId
  | some bz => k.unmarshalId bz

/-- The stores have the same next id and the same records. -/
structure Same (k : Registrar ω) (st st' : PrefixStore UInt8 UInt8) : Prop where
  next : k.nextId st' = k.nextId st
  records : ∀ key, keyAccountAuthenticatorsPrefixId <+: key → st'[key]? = st[key]?

theorem Same.refl (st : PrefixStore UInt8 UInt8) : Same k st st := ⟨rfl, fun _ _ => rfl⟩

theorem nextId_set_next (st : PrefixStore UInt8 UInt8) (id : UInt64) :
    k.nextId (st.set keyNextAccountAuthenticatorId (k.marshalId id)) = .ok id := by
  rw [nextId, getElem?_set, if_pos rfl]
  exact k.unmarshalId_marshalId id

theorem nextId_set_record (st : PrefixStore UInt8 UInt8) (a : k.Address) (id : UInt64) (v : Bytes) :
    k.nextId (st.set (k.recordKey a.bytes id) v) = k.nextId st := by
  have hne : k.recordKey a.bytes id ≠ keyNextAccountAuthenticatorId :=
    fun h => not_prefixId_next (h ▸ prefixId_recordKey a id)
  rw [nextId, getElem?_set, if_neg hne, nextId]

theorem nextId_delete_record (st : PrefixStore UInt8 UInt8) (a : k.Address) (id : UInt64) :
    k.nextId (st.delete (k.recordKey a.bytes id)) = k.nextId st := by
  have hne : k.recordKey a.bytes id ≠ keyNextAccountAuthenticatorId :=
    fun h => not_prefixId_next (h ▸ prefixId_recordKey a id)
  rw [nextId, getElem?_delete, if_neg hne, nextId]

theorem nextId_setAll (st : PrefixStore UInt8 UInt8) (es : List k.Entry) :
    k.nextId (k.setAll st (es.map (fun e => (k.addressString e.1.bytes, e.2)))) = k.nextId st := by
  induction es generalizing st with
  | nil => rfl
  | cons e es ih => exact (ih _).trans (nextId_set_record st e.1 e.2.id (k.marshal e.2))

/-- Asking for the next id changes nothing but that it may be written down. -/
theorem initializeOrGet_spec (s : Registry ω) :
    (k.initializeOrGetNextAuthenticatorId s).2 = k.nextId s.store ∧
      Same k s.store (k.initializeOrGetNextAuthenticatorId s).1.store := by
  unfold initializeOrGetNextAuthenticatorId
  cases h : s.store[keyNextAccountAuthenticatorId]? with
  | none =>
    have hnext : k.nextId s.store = .ok firstAuthenticatorId := by rw [nextId, h]
    refine ⟨hnext.symm, (nextId_set_next _ _).trans hnext.symm, fun key hkey => ?_⟩
    have hne : keyNextAccountAuthenticatorId ≠ key := by
      rintro rfl
      exact not_prefixId_next hkey
    exact (getElem?_set _ _ _ _).trans (if_neg hne)
  | some bz => exact ⟨by rw [nextId, h], .refl _⟩

/-- An addition fails and leaves the registry as it is, or sets the record under the next id and counts on. -/
theorem addAuthenticator_cases (account : Bytes) (type : Text) (config : Bytes) (s : Registry ω) :
    ((∃ e, (k.addAuthenticator account type config s).2 = .error e) ∧
      Same k s.store (k.addAuthenticator account type config s).1.store) ∨
    ∃ id st, (k.addAuthenticator account type config s).2 = .ok id ∧ k.nextId s.store = .ok id ∧ Same k s.store st ∧
      (k.addAuthenticator account type config s).1.store =
        (st.set keyNextAccountAuthenticatorId (k.marshalId (id + 1))).set (k.recordKey account id)
          (k.marshal ⟨id, type, config⟩) := by
  obtain ⟨hnext, hsame⟩ := initializeOrGet_spec (k := k) s
  unfold addAuthenticator
  cases himpl : k.getAuthenticatorByType type with
  | none => exact .inl ⟨⟨_, rfl⟩, .refl _⟩
  | some impl =>
    rcases hget : k.initializeOrGetNextAuthenticatorId s with ⟨s₁, e | id⟩ <;> rw [hget] at hnext hsame
    · simp only [Attempt.bind_apply, hget]
      exact .inl ⟨⟨e, rfl⟩, hsame⟩
    · simp only [Attempt.bind_apply, hget, Attempt.mapFailure, runHook]
      rcases hhook : impl.onAuthenticatorAdded account config (decimal id.toNat) s₁.world with ⟨w, e | u⟩
      · exact .inl ⟨⟨_, rfl⟩, hsame⟩
      · exact .inr ⟨id, s₁.store, rfl, hnext.symm, hsame, rfl⟩

/-- A removal fails and leaves the store as it is, or deletes the record. -/
theorem removeAuthenticator_cases (account : Bytes) (id : UInt64) (s : Registry ω) :
    ((∃ e, (k.removeAuthenticator account id s).2 = .error e) ∧
      (k.removeAuthenticator account id s).1.store = s.store) ∨
    ((k.removeAuthenticator account id s).2 = .ok () ∧
      (k.removeAuthenticator account id s).1.store = s.store.delete (k.recordKey account id)) := by
  unfold removeAuthenticator
  rcases hexisting : k.existing account id s.store[k.recordKey account id]? with e | record
  · simp only [Attempt.bind_apply, Attempt.observe, hexisting]
    exact .inl ⟨⟨e, rfl⟩, trivial⟩
  · simp only [Attempt.bind_apply, Attempt.observe, hexisting]
    cases himpl : k.getAuthenticatorByType record.type with
    | none => exact .inl ⟨⟨_, rfl⟩, rfl⟩
    | some impl =>
      simp only [Attempt.bind_apply, Attempt.mapFailure, runHook]
      rcases hhook : impl.onAuthenticatorRemoved account record.config (decimal id.toNat) s.world with ⟨w, e | u⟩
      · exact .inl ⟨⟨_, rfl⟩, rfl⟩
      · exact .inr ⟨rfl, rfl⟩

/-- The registries that additions, removals and restarts from an export reach, with the entries that were added and
not removed and the ids that were given out. The rest of the chain moves as it likes. -/
inductive Reached (k : Registrar ω) : Registry ω → List k.Entry → List UInt64 → Prop where
  | empty (w : ω) : Reached k ⟨∅, w⟩ [] []
  | elsewhere {s : Registry ω} {L : List k.Entry} {I : List UInt64} (h : Reached k s L I) (w : ω) :
    Reached k { s with world := w } L I
  | added {s s' : Registry ω} {L : List k.Entry} {I : List UInt64} (h : Reached k s L I) {a : k.Address} {type : Text}
    {config : Bytes} {id : UInt64} (hadd : k.addAuthenticator a.bytes type config s = (s', .ok id)) :
    Reached k s' (L ++ [(a, ⟨id, type, config⟩)]) (I ++ [id])
  | notAdded {s s' : Registry ω} {L : List k.Entry} {I : List UInt64} (h : Reached k s L I) {a : k.Address}
    {type : Text} {config : Bytes} {e : Err} (hadd : k.addAuthenticator a.bytes type config s = (s', .error e)) :
    Reached k s' L I
  | removed {s s' : Registry ω} {L : List k.Entry} {I : List UInt64} (h : Reached k s L I) {a : k.Address} {id : UInt64}
    (hremove : k.removeAuthenticator a.bytes id s = (s', .ok ())) :
    Reached k s' (L.filter (fun e => ¬ (e.1.bytes = a.bytes ∧ e.2.id = id))) I
  | notRemoved {s s' : Registry ω} {L : List k.Entry} {I : List UInt64} (h : Reached k s L I) {a : k.Address}
    {id : UInt64} {e : Err} (hremove : k.removeAuthenticator a.bytes id s = (s', .error e)) : Reached k s' L I
  | restarted {s s' : Registry ω} {L : List k.Entry} {I : List UInt64} (h : Reached k s L I) {gs : RegistryGenesis}
    {w : ω} (hexport : (k.exportGenesis s).2 = .ok gs) (himport : k.initGenesis gs ⟨∅, w⟩ = (s', .ok ())) :
    Reached k s' L I

/-- The ids given out are the first numbers, the entries carry some of them, and the store holds the entries. -/
structure Sound (k : Registrar ω) (st : PrefixStore UInt8 UInt8) (L : List k.Entry) (I : List UInt64) : Prop where
  next : k.nextId st = .ok (UInt64.ofNat (I.length + 1))
  issued : I = (List.range I.length).map (fun i => UInt64.ofNat (i + 1))
  holds : Holds st L
  ids : ∀ e ∈ L, e.2.id ∈ I
  nodup : (L.map (fun e => e.2.id)).Nodup

section Sound
variable {st st' : PrefixStore UInt8 UInt8} {L : List k.Entry} {I : List UInt64}

theorem Sound.congr (h : Sound k st L I) (hsame : Same k st st') : Sound k st' L I where
  next := hsame.next.trans h.next
  issued := h.issued
  holds := fun key bz hkey => by
    rw [hsame.records key hkey]
    exact h.holds key bz hkey
  ids := h.ids
  nodup := h.nodup

theorem Sound.empty : Sound k ∅ [] [] where
  next := by
    rw [nextId, Std.ExtTreeMap.getElem?_empty]
    rfl
  issued := rfl
  holds := .empty
  ids := fun e he => absurd he List.not_mem_nil
  nodup := List.nodup_nil

/-- Below the end of the numbers an id given out is its position counted from one. -/
theorem Sound.id_lt (h : Sound k st L I) (hI : I.length < 2 ^ 64 - 1) {id : UInt64} (hid : id ∈ I) :
    id < UInt64.ofNat (I.length + 1) := by
  rw [h.issued] at hid
  obtain ⟨i, hi, rfl⟩ := List.mem_map.mp hid
  have hlt := List.mem_range.mp hi
  rw [UInt64.lt_iff_toNat_lt, UInt64.toNat_ofNat', UInt64.toNat_ofNat']
  omega

theorem Sound.issued_nodup (h : Sound k st L I) (hI : I.length < 2 ^ 64 - 1) : I.Nodup := by
  rw [h.issued]
  refine List.Nodup.map_on ?_ List.nodup_range
  intro i hi j hj heq
  have hi := List.mem_range.mp hi
  have hj := List.mem_range.mp hj
  have heq := congrArg UInt64.toNat heq
  rw [UInt64.toNat_ofNat', UInt64.toNat_ofNat'] at heq
  omega

theorem Sound.entries_nodup (h : Sound k st L I) : L.Nodup := h.nodup.of_map _

theorem Sound.add (h : Sound k st L I) (a : k.Address) (type : Text) (config : Bytes) {id : UInt64}
    (hid : k.nextId st = .ok id) (hI : I.length + 1 < 2 ^ 64 - 1) :
    Sound k ((st.set keyNextAccountAuthenticatorId (k.marshalId (id + 1))).set (k.recordKey a.bytes id)
      (k.marshal ⟨id, type, config⟩)) (L ++ [(a, ⟨id, type, config⟩)]) (I ++ [id]) := by
  have hcount : id = UInt64.ofNat (I.length + 1) := Except.ok.inj (hid.symm.trans h.next)
  have hfresh : ∀ e ∈ L, e.2.id ≠ id := fun e he => hcount ▸ UInt64.ne_of_lt (h.id_lt (by omega) (h.ids e he))
  have hholds := (h.holds.set_next (k.marshalId (id + 1))).insert (a, ⟨id, type, config⟩) hfresh
  refine ⟨?_, ?_, hholds, ?_, ?_⟩
  · rw [nextId_set_record, nextId_set_next, List.length_append, List.length_singleton, UInt64.ofNat_add, ← hcount]
    rfl
  · rw [List.length_append, List.length_singleton, List.range_succ, List.map_append, ← h.issued, hcount]
    rfl
  · intro e he
    rcases List.mem_append.mp he with he | he
    · exact List.mem_append_left _ (h.ids e he)
    · rw [List.mem_singleton.mp he]
      exact List.mem_append_right _ (List.mem_singleton_self _)
  · rw [List.map_append, List.nodup_append]
    refine ⟨h.nodup, List.nodup_singleton _, ?_⟩
    intro x hx y hy
    obtain ⟨e, he, rfl⟩ := List.mem_map.mp hx
    rw [List.mem_singleton.mp hy]
    exact hfresh e he

theorem Sound.remove (h : Sound k st L I) (a : k.Address) (id : UInt64) :
    Sound k (st.delete (k.recordKey a.bytes id)) (L.filter (fun e => ¬ (e.1.bytes = a.bytes ∧ e.2.id = id))) I where
  next := (nextId_delete_record st a id).trans h.next
  issued := h.issued
  holds := h.holds.erase a id
  ids := fun e he => h.ids e (List.mem_filter.mp he).1
  nodup := (List.filter_sublist.map _).nodup h.nodup

/-- The file lists the entries, each once, and the next id. -/
theorem Sound.exported (h : Sound k st L I) (w : ω) : ∃ (es : List k.Entry) (data : List AuthenticatorData),
    (k.exportGenesis ⟨st, w⟩).2 = .ok ⟨UInt64.ofNat (I.length + 1), data⟩ ∧ es.Perm L ∧
      listed data = es.map (fun e => (k.addressString e.1.bytes, e.2)) ∧
      ∀ d ∈ data, ∃ a : k.Address, d.address = k.addressString a.bytes := by
  obtain ⟨hnext, hsame⟩ := initializeOrGet_spec (k := k) ⟨st, w⟩
  have hsound := h.congr hsame
  obtain ⟨es, hes, hperm⟩ := hsound.holds.iteratePrefix hsound.entries_nodup (List.prefix_refl _)
  obtain ⟨data, hdata, hlisted, haddr⟩ := parseEntries_stored es [] (fun d hd => absurd hd List.not_mem_nil)
  have hall : L.filter (fun e => keyAccountAuthenticatorsPrefixId.isPrefixOf (entryKey e)) = L := by
    rw [List.filter_eq_self]
    intro e _
    exact List.isPrefixOf_iff_prefix.mpr (prefixId_recordKey e.1 e.2.id)
  refine ⟨es, data, ?_, hall ▸ hperm, hlisted, haddr⟩
  refine Attempt.bind_eq_ok.mpr ⟨_, hnext.trans h.next, Attempt.bind_eq_ok.mpr ⟨data, ?_, rfl⟩⟩
  change k.parseEntries [] (iteratePrefix _ _) = _
  rw [hes, hdata]

/-- Every entry of the file is listed, and nothing else. -/
private theorem mem_listed {es : List k.Entry} (hperm : es.Perm L) {data : List AuthenticatorData}
    (hlisted : listed data = es.map (fun e => (k.addressString e.1.bytes, e.2))) (a : k.Address)
    (r : AccountAuthenticator) :
    (k.addressString a.bytes, r) ∈ listed data ↔ (a, r) ∈ L := by
  rw [hlisted, List.mem_map, ← hperm.mem_iff]
  constructor
  · rintro ⟨e, he, heq⟩
    obtain ⟨haddr, hrec⟩ := Prod.mk.inj heq
    rwa [← address_eq haddr, ← hrec]
  · exact fun h => ⟨(a, r), h, rfl⟩

/-- A registry that holds the listed entries and the next id is sound for them. -/
theorem Sound.imported (h : Sound k st L I) (hI : I.length < 2 ^ 64 - 1) {es : List k.Entry} (hperm : es.Perm L)
    {data : List AuthenticatorData} (hlisted : listed data = es.map (fun e => (k.addressString e.1.bytes, e.2)))
    (haddr : ∀ d ∈ data, ∃ a : k.Address, d.address = k.addressString a.bytes) {w : ω}
    (haccept : ∀ e ∈ L, k.Accepted w e.1.bytes e.2) :
    ∃ st', k.initGenesis ⟨UInt64.ofNat (I.length + 1), data⟩ ⟨∅, w⟩ = (⟨st', w⟩, .ok ()) ∧ Sound k st' L I := by
  have hpos : UInt64.ofNat (I.length + 1) ≠ 0 := by
    intro h0
    have h0 := congrArg UInt64.toNat h0
    rw [UInt64.toNat_ofNat', UInt64.toNat_zero] at h0
    omega
  obtain ⟨next, hnext⟩ : ∃ next, next = UInt64.ofNat (I.length + 1) := ⟨_, rfl⟩
  rw [← hnext] at hpos ⊢
  let start : PrefixStore UInt8 UInt8 := set ∅ keyNextAccountAuthenticatorId (k.marshalId next)
  have hset : k.setNextAuthenticatorId (if next = 0 then firstAuthenticatorId else next) ⟨∅, w⟩ =
      (⟨start, w⟩, .ok ()) := by
    rw [if_neg hpos]
    rfl
  have hdata : k.addData data ⟨start, w⟩ = _ :=
    addData_eq haddr (fun a r hr => haccept (a, r) ((mem_listed hperm hlisted a r).mp hr))
  have hids : ((([] : List k.Entry) ++ es).map (fun e => e.2.id)).Nodup := (hperm.map _).nodup_iff.mpr h.nodup
  have hholds := (Holds.empty.set_next (k.marshalId next)).setAll es hids
  refine ⟨k.setAll start (listed data), ?_, ?_, h.issued, ?_, h.ids, h.nodup⟩
  · rw [initGenesis, Attempt.bind_apply_ok hset]
    exact hdata
  · rw [hlisted, nextId_setAll, ← hnext]
    exact nextId_set_next ∅ next
  · intro key bz hkey
    rw [hlisted]
    refine (hholds key bz hkey).trans ⟨?_, ?_⟩
    · rintro ⟨e, he, hrest⟩
      exact ⟨e, hperm.mem_iff.mp he, hrest⟩
    · rintro ⟨e, he, hrest⟩
      exact ⟨e, hperm.mem_iff.mpr he, hrest⟩

theorem Sound.same (h : Sound k st L I) (h' : Sound k st' L I) : Same k st st' where
  next := h'.next.trans h.next.symm
  records := fun key hkey => Option.ext (fun bz => (h'.holds key bz hkey).trans (h.holds key bz hkey).symm)

end Sound

theorem Reached.sound {s : Registry ω} {L : List k.Entry} {I : List UInt64} (h : Reached k s L I)
    (hI : I.length < 2 ^ 64 - 1) : Sound k s.store L I := by
  induction h with
  | empty w => exact .empty
  | elsewhere h w ih => exact ih hI
  | @added s s' L I h a type config id hadd ih =>
    rw [List.length_append, List.length_singleton] at hI
    have hcases := addAuthenticator_cases (k := k) a.bytes type config s
    rw [hadd] at hcases
    rcases hcases with ⟨⟨e, he⟩, -⟩ | ⟨id', st, hid, hnext, hsame, hstore⟩
    · cases he
    · cases hid
      rw [hstore]
      exact ((ih (by omega)).congr hsame).add a type config (hsame.next.trans hnext) (by omega)
  | @notAdded s s' L I h a type config e hadd ih =>
    have hcases := addAuthenticator_cases (k := k) a.bytes type config s
    rw [hadd] at hcases
    rcases hcases with ⟨-, hsame⟩ | ⟨id, st, hid, -⟩
    · exact (ih hI).congr hsame
    · cases hid
  | @removed s s' L I h a id hremove ih =>
    have hcases := removeAuthenticator_cases (k := k) a.bytes id s
    rw [hremove] at hcases
    rcases hcases with ⟨⟨e, he⟩, -⟩ | ⟨-, hstore⟩
    · cases he
    · rw [hstore]
      exact (ih hI).remove a id
  | @notRemoved s s' L I h a id e hremove ih =>
    have hcases := removeAuthenticator_cases (k := k) a.bytes id s
    rw [hremove] at hcases
    rcases hcases with ⟨-, hstore⟩ | ⟨hok, -⟩
    · rw [hstore]
      exact ih hI
    · cases hok
  | @restarted s s' L I h gs w hexport himport ih =>
    have hsound := ih hI
    obtain ⟨es, data, hgs, hperm, hlisted, haddr⟩ := hsound.exported s.world
    cases hexport.symm.trans hgs
    -- the import went through, so the hooks accepted what is stored
    have haccept : ∀ e ∈ L, k.Accepted w e.1.bytes e.2 := by
      rintro ⟨a, r⟩ he
      obtain ⟨_, -, hdata⟩ := Attempt.bind_eq_ok.mp (congrArg Prod.snd himport)
      exact accepted_of_addData haddr hdata a r ((mem_listed hperm hlisted a r).mpr he)
    obtain ⟨st', hrun, hsound'⟩ := hsound.imported hI hperm hlisted haddr haccept
    cases himport.symm.trans hrun
    exact hsound'

end Registrar

open Registrar in
/-- However a registry was reached with fewer than `2 ^ 64 - 1` additions: no id was given out twice, every stored id
lies below the next one, each account has exactly the authenticators added to it and not removed, and what is
exported and imported has the same records and the same next id. -/
theorem registry_exact {ω : Type} (k : Registrar ω) {s : Registry ω} {L : List k.Entry} {I : List UInt64}
    (h : Reached k s L I) (hI : I.length < 2 ^ 64 - 1) :
    I.Nodup ∧
    (∃ next, (k.initializeOrGetNextAuthenticatorId s).2 = .ok next ∧
      ∀ key bz, keyAccountAuthenticatorsPrefixId <+: key → s.store[key]? = some bz →
        ∃ (a : k.Address) (r : AccountAuthenticator), key = k.recordKey a.bytes r.id ∧ k.unmarshal bz = .ok r ∧
          r.id < next) ∧
    (∀ a : k.Address, ∃ records, k.getAuthenticatorDataForAccount s a.bytes = .ok records ∧
      records.Perm ((L.filter (fun e => e.1.bytes = a.bytes)).map Prod.snd)) ∧
    ∀ w, (∀ e ∈ L, k.Accepted w e.1.bytes e.2) →
      ∃ gs s', (k.exportGenesis s).2 = .ok gs ∧ k.initGenesis gs ⟨∅, w⟩ = (s', .ok ()) ∧ Same k s.store s'.store := by
  have hsound := h.sound hI
  refine ⟨hsound.issued_nodup hI, ⟨_, (initializeOrGet_spec s).1.trans hsound.next, ?_⟩, ?_, ?_⟩
  · intro key bz hkey hget
    obtain ⟨e, he, rfl, rfl⟩ := (hsound.holds key bz hkey).mp hget
    exact ⟨e.1, e.2, rfl, k.unmarshal_marshal e.2, hsound.id_lt hI (hsound.ids e he)⟩
  · intro a
    obtain ⟨es, hes, hperm⟩ := hsound.holds.iteratePrefix hsound.entries_nodup
      (prefixId_keyAccount (k.addressString a.bytes))
    refine ⟨es.map Prod.snd, ?_, (hperm.map _).trans (List.Perm.of_eq ?_)⟩
    · rw [getAuthenticatorDataForAccount, hes, gatherValues_stored]
    · congr 1
      apply List.filter_congr
      intro e _
      rw [Bool.eq_iff_iff, List.isPrefixOf_iff_prefix, entryKey, keyAccount_prefix_iff, decide_eq_true_eq]
      constructor
      · rintro rfl
        rfl
      · intro hbytes
        exact address_eq (by rw [hbytes])
  · intro w haccept
    obtain ⟨es, data, hgs, hperm, hlisted, haddr⟩ := hsound.exported s.world
    obtain ⟨st', hrun, hsound'⟩ := hsound.imported hI hperm hlisted haddr haccept
    exact ⟨_, _, hgs, hrun, hsound.same hsound'⟩

/-! Two accounts and a type whose hooks accept everything, with the protobuf records of the store. -/

open Protobuf

def marshalRecord (a : AccountAuthenticator) : Bytes :=
  numberField 8 a.id.toNat ++ (bytesField 18 a.type ++ bytesField 26 a.config)

def unmarshalRecord (bz : Bytes) : Option AccountAuthenticator := do
  let (id, bz) ← readNumber 8 bz
  let (type, bz) ← readBytes 18 bz
  let (config, _) ← readBytes 26 bz
  some ⟨UInt64.ofNat id, type, config⟩

theorem unmarshalRecord_marshalRecord (a : AccountAuthenticator) : unmarshalRecord (marshalRecord a) = some a := by
  have hhead (tag : UInt8) (hne : 26 ≠ tag) : (bytesField 26 a.config).head? ≠ some tag := by
    simpa using head?_bytesField_ne a.config [] hne (by simp)
  have hconfig : readBytes 26 (bytesField 26 a.config) = some (a.config, []) := by
    simpa using readBytes_bytesField a.config [] (by simp)
  rw [unmarshalRecord, marshalRecord,
    readNumber_numberField _ _ (head?_bytesField_ne _ _ (by decide) (hhead 8 (by decide)))]
  simp [readBytes_bytesField _ _ (hhead 18 (by decide)), hconfig]

def accountBytesA : Bytes := List.replicate 20 1
def accountBytesB : Bytes := List.replicate 20 2

def sampleRegistrar : Registrar Unit where
  getAuthenticatorByType type :=
    if type = text "SignatureVerification" then some ⟨fun _ _ _ w => (w, .ok ()), fun _ _ _ w => (w, .ok ())⟩ else none
  addressString := Bech32.encode (text "terp")
  accAddressFromBech32 :=
    Bech32.parse (text "terp") [accountBytesA, accountBytesB] ⟨.other, text "invalid bech32"⟩
  marshal := marshalRecord
  unmarshal bz := (unmarshalRecord bz).elim (.error ⟨.other, text "unexpected EOF"⟩) .ok
  unmarshal_marshal a := by rw [unmarshalRecord_marshalRecord, Option.elim_some]
  marshalId id := numberField 8 id.toNat
  unmarshalId bz := (readNumber 8 bz).elim (.error ⟨.other, text "unexpected EOF"⟩) (fun r => .ok (UInt64.ofNat r.1))
  unmarshalId_marshalId id := by
    rw [← List.append_nil (numberField 8 id.toNat), readNumber_numberField _ _ (by simp), Option.elim_some,
      UInt64.ofNat_toNat]

def accountA : sampleRegistrar.Address := ⟨accountBytesA, by decide +kernel, by decide +kernel⟩
def accountB : sampleRegistrar.Address := ⟨accountBytesB, by decide +kernel, by decide +kernel⟩

def afterFirst : Registry Unit :=
  (sampleRegistrar.addAuthenticator accountA.bytes (text "SignatureVerification") [2, 3] ⟨∅, ()⟩).1
def afterSecond : Registry Unit :=
  (sampleRegistrar.addAuthenticator accountB.bytes (text "SignatureVerification") [4] afterFirst).1
def afterRemoval : Registry Unit := (sampleRegistrar.removeAuthenticator accountA.bytes 1 afterSecond).1

/-- Two are added and the first is removed: the second account keeps its own. -/
theorem second_account_keeps_its_own :
    ∃ records, sampleRegistrar.getAuthenticatorDataForAccount afterRemoval accountB.bytes = .ok records ∧
      records.Perm [⟨2, text "SignatureVerification", [4]⟩] := by
  have hfirst : sampleRegistrar.addAuthenticator accountA.bytes (text "SignatureVerification") [2, 3] ⟨∅, ()⟩ =
      (afterFirst, .ok 1) := Prod.ext rfl (by decide +kernel)
  have hsecond : sampleRegistrar.addAuthenticator accountB.bytes (text "SignatureVerification") [4] afterFirst =
      (afterSecond, .ok 2) := Prod.ext rfl (by decide +kernel)
  have hremoval : sampleRegistrar.removeAuthenticator accountA.bytes 1 afterSecond = (afterRemoval, .ok ()) :=
    Prod.ext rfl (by decide +kernel)
  exact (registry_exact sampleRegistrar (.removed (.added (.added (.empty ()) hfirst) hsecond) hremoval)
    (by decide)).2.2.1 accountB

end Terpz.SmartAccount
