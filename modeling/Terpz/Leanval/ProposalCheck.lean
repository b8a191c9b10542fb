import Terpz.Leanval.Keeper.Proposal
import Terpz.Leanval.Keeper.Reach

/-! The check of a proposal: what verifying a record writes, and where a prepared proposal has its record and ticket. -/
namespace Terpz.Leanval.Keeper
open Lib Lib.PrefixStore

section Writes

/-- Every key holds what it held. -/
def Untouched (st st' : Store) : Prop := ∀ k : Bytes, st'[k]? = st[k]?

/-- The record is refused before the roster is looked up; or a bit is set, or its period has rows, or no period before
it has any. -/
def CarriesNothing (h : Host) (st : Store) (blob : LNPRBlob) : Prop :=
  checkLNPRUniqueness st blob = .ok () → blob.subjects ≠ [] →
  verifyAggregate h (foldProofFromLNPR blob) (lastObjectRoots st) = .ok () →
  debugSubjectsFromBits st = [] → bondedSet st blob.period = [] → lastBonded st blob.period.toNat = []

theorem untouched_bitsOrCarry_iff (st : Store) (period : UInt64) : Untouched st (bitsOrCarry st period).1 ↔
    (debugSubjectsFromBits st = [] → bondedSet st period = [] → lastBonded st period.toNat = []) := by
  unfold bitsOrCarry
  by_cases hbits : debugSubjectsFromBits st = []
  · simp only [hbits, List.length_nil, if_true, forall_const]
    rw [bondedSetOrCarry_store]
    constructor
    · -- a carried row would stand in a period that had none
      intro huntouched hrows
      by_contra hlast
      have hperiod : period ≠ 0 := by
        rintro rfl
        exact hlast rfl
      have hsource : carrySource st period = lastBonded st period.toNat := by
        simp [carrySource, hrows, hperiod]
      obtain ⟨r, hr⟩ := List.exists_mem_of_ne_nil _ hlast
      rw [hsource] at huntouched
      obtain ⟨t, ht, -⟩ := carryRows_mem st period hr
      rw [← bondedSet_eq_of_agree (fun k _ => (huntouched k).symm) period, hrows] at ht
      cases ht
    · intro hlast
      have hsource : carrySource st period = [] := by
        unfold carrySource
        split
        · rfl
        · rename_i hcarry
          refine hlast ?_
          simp only [Bool.or_eq_true, decide_eq_true_eq, not_or, not_lt, Nat.le_zero, List.length_eq_zero_iff] at hcarry
          exact hcarry.1
      rw [hsource]
      exact fun _ => rfl
  · have hlen : (debugSubjectsFromBits st).length ≠ 0 := fun h => hbits (List.length_eq_zero_iff.mp h)
    rw [if_neg hlen]
    simp only [hbits, false_imp_iff, iff_true]
    exact fun _ => rfl

theorem untouched_verifyLNPR_iff (h : Host) (st : Store) (blob : LNPRBlob) :
    Untouched st (verifyLNPR h st blob false).1 ↔ CarriesNothing h st blob := by
  unfold verifyLNPR CarriesNothing
  cases checkLNPRUniqueness st blob with
  | error e => exact ⟨fun _ hok => (nomatch hok), fun _ _ => rfl⟩
  | ok u =>
    by_cases hnil : blob.subjects = []
    · simp only [hnil]
      exact ⟨fun _ _ hne => absurd rfl hne, fun _ _ => rfl⟩
    · have hlen : ¬ (false || blob.subjects.length == 0) = true := by simpa using hnil
      simp only [if_neg hlen]
      cases verifyAggregate h (foldProofFromLNPR blob) (lastObjectRoots st) with
      | error e => exact ⟨fun _ _ _ hok => (nomatch hok), fun _ _ => rfl⟩
      | ok u =>
        simp only [untouched_bitsOrCarry_iff]
        exact ⟨fun hcarry _ _ _ => hcarry, fun hcarry => hcarry trivial hnil trivial⟩

theorem untouched_recheck (h : Host) (st : Store) (blob : LNPRBlob) :
    Untouched st (verifyLNPR h st blob true).1 := by
  unfold verifyLNPR
  cases checkLNPRUniqueness st blob <;> exact fun _ => rfl

end Writes

/-- In every state, verifying a record leaves every key alone exactly if no rows are carried for it; so does
the check of a proposal for the record it verifies, and the application of a record that is refused. The
recheck writes nothing. -/
theorem verification_writes_nothing_iff (h : Host) (st : Store) (blob : LNPRBlob) :
    (Untouched st (verifyLNPR h st blob false).1 ↔ CarriesNothing h st blob) ∧
    Untouched st (verifyLNPR h st blob true).1 ∧
    (∀ requireLNPR live height txs, Untouched st (checkLNPR h requireLNPR live st height txs).1 ↔
      ∀ b, findLNPRAt txs = some (b, expectedLNPRIndex txs) → b.period = periodFromHeight live height →
        CarriesNothing h st b) ∧
    (∀ e, (applyLNPR h st blob).2 = .error e → (Untouched st (applyLNPR h st blob).1 ↔ CarriesNothing h st blob)) := by
  refine ⟨untouched_verifyLNPR_iff h st blob, untouched_recheck h st blob, ?_, ?_⟩
  · intro requireLNPR live height txs
    unfold checkLNPR
    cases hfind : findLNPRAt txs with
    | none => exact ⟨fun _ _ hb => (nomatch hb), fun _ _ => rfl⟩
    | some found =>
      obtain ⟨b, idx⟩ := found
      simp only
      split
      · rename_i hidx
        refine ⟨fun _ b' hb' => ?_, fun _ _ => rfl⟩
        cases hb'
        exact absurd rfl hidx
      · rename_i hidx
        obtain rfl := not_not.mp hidx
        split
        · rename_i hperiod
          refine ⟨fun _ b' hb' hp => ?_, fun _ _ => rfl⟩
          cases hb'
          exact absurd hp hperiod
        · rename_i hperiod
          rw [untouched_verifyLNPR_iff]
          refine ⟨fun hc b' hb' _ => ?_, fun hc => hc b rfl (not_not.mp hperiod)⟩
          cases hb'
          exact hc
  · intro e he
    rw [← untouched_verifyLNPR_iff]
    unfold applyLNPR at he ⊢
    cases hv : verifyLNPR h st blob false with
    | mk st' r =>
      rw [hv] at he
      cases r with
      | ok u => cases he
      | error e' => rfl

/-- The only validator left in period 1; its row of period 0 stays. -/
def vacatedStore : Store := run (opStep dummyHost) (genesisStore ∅ soloGenesis) [.applyLeave ⟨1, keyOf 0xa1⟩]

/-- A record of period 2 without a proof. -/
def bareRecord : LNPRBlob := ⟨2, [⟨keyOf 0xc3, 5, []⟩]⟩

/-- Verifying, and refusing to apply, a record admits the validator again that had left; a genesis subject
without weight is copied into the period of the record. -/
theorem refused_record_readmits_leaver :
    (Reachable dummyHost vacatedStore ∧ (verifyLNPR dummyHost vacatedStore bareRecord false).2 ≠ .ok () ∧
      (applyLNPR dummyHost vacatedStore bareRecord).2 ≠ .ok () ∧ bitIsSet vacatedStore 0 = false ∧
      bitIsSet (applyLNPR dummyHost vacatedStore bareRecord).1 0 = true ∧
      ¬ Untouched vacatedStore (verifyLNPR dummyHost vacatedStore bareRecord false).1) ∧
    ¬ Untouched (genesisStore ∅ ⟨true, [⟨keyOf 0xa1, 0⟩], 0⟩)
      (verifyLNPR dummyHost (genesisStore ∅ ⟨true, [⟨keyOf 0xa1, 0⟩], 0⟩) bareRecord false).1 := by
  have hfacts : (verifyLNPR dummyHost vacatedStore bareRecord false).2 ≠ .ok () ∧
      (applyLNPR dummyHost vacatedStore bareRecord).2 ≠ .ok () ∧ bitIsSet vacatedStore 0 = false ∧
      bitIsSet (applyLNPR dummyHost vacatedStore bareRecord).1 0 = true ∧
      (verifyLNPR dummyHost vacatedStore bareRecord false).1[bondedKey 2 (keyOf 0xa1)]? ≠
        vacatedStore[bondedKey 2 (keyOf 0xa1)]? ∧
      (verifyLNPR dummyHost (genesisStore ∅ ⟨true, [⟨keyOf 0xa1, 0⟩], 0⟩) bareRecord false).1[
          bondedKey 2 (keyOf 0xa1)]? ≠
        (genesisStore ∅ ⟨true, [⟨keyOf 0xa1, 0⟩], 0⟩)[bondedKey 2 (keyOf 0xa1)]? := by
    decide +kernel
  obtain ⟨hverify, happly, hbefore, hafter, hleft, hgenesis⟩ := hfacts
  exact ⟨⟨⟨soloGenesis, _, _, rfl, rfl⟩, hverify, happly, hbefore, hafter, fun h => hleft (h _)⟩,
    fun h => hgenesis (h _)⟩

section Slots
variable {lnpr : Bytes}

/-- Neither a record nor a ticket. -/
def isOther (tx : Bytes) : Bool := !hasPrefix tx prefixLNPR && !hasPrefix tx prefixSSLE

/-- The prepared list: the other transactions, with record and ticket in front or behind a leading vote extension. -/
theorem injected_eq (txs : List Bytes) (hl : hasPrefix lnpr prefixLNPR = true) (ssle : Bytes) :
    ∃ before after, Leads before ∧ injectSSLE (injectLNPR txs lnpr) ssle = before ++ lnpr :: ssle :: after ∧
      before ++ after = txs.filter isOther := by
  obtain ⟨before, rest, hlead, hinject, hkept⟩ := injectLNPR_eq txs lnpr
  refine ⟨before, rest.filter (fun tx => !hasPrefix tx prefixSSLE), hlead, ?_, ?_⟩
  · rw [hinject]
    exact injectSSLE_eq hlead hl ssle
  · calc before ++ rest.filter (fun tx => !hasPrefix tx prefixSSLE)
        = (before ++ rest).filter (fun tx => !hasPrefix tx prefixSSLE) := by rw [List.filter_append, hlead.no_ticket]
      _ = txs.filter isOther := by
        rw [hkept, List.filter_filter]
        exact List.filter_congr (fun tx _ => Bool.and_comm _ _)

private theorem filter_others {p : Bytes} (hp : p = prefixLNPR ∨ p = prefixSSLE) {l txs : List Bytes}
    (h : l ⊆ txs.filter isOther) : l.filter (fun tx => hasPrefix tx p) = [] := by
  refine List.filter_eq_nil_iff.mpr (fun tx htx hpre => ?_)
  have hother := (List.mem_filter.mp (h htx)).2
  rw [isOther, Bool.and_eq_true, Bool.not_eq_true', Bool.not_eq_true'] at hother
  rcases hp with rfl | rfl
  · rw [hother.1] at hpre
    cases hpre
  · rw [hother.2] at hpre
    cases hpre

end Slots

/-- Whatever the transactions are, the prepared list has one record, in the slot the check expects it in, one ticket,
right behind it, and besides them the transactions that are neither, in their order. A record that decodes is the one
found. -/
theorem injection_slots (txs : List Bytes) (lnpr ssle : Bytes) (hl : hasPrefix lnpr prefixLNPR = true)
    (hs : hasPrefix ssle prefixSSLE = true) :
    let out := injectSSLE (injectLNPR txs lnpr) ssle
    (∃ before after, out = before ++ lnpr :: ssle :: after ∧ before.length = expectedLNPRIndex out ∧
      before ++ after = txs.filter isOther) ∧
    out.filter (fun tx => hasPrefix tx prefixLNPR) = [lnpr] ∧ out.filter (fun tx => hasPrefix tx prefixSSLE) = [ssle] ∧
    (∀ blob, decodeLNPR lnpr = some blob → findLNPRAt out = some (blob, expectedLNPRIndex out)) := by
  intro out
  obtain ⟨before, after, hlead, hout, hothers⟩ := injected_eq txs hl ssle
  have hout : out = before ++ lnpr :: ssle :: after := hout
  have hls : hasPrefix lnpr prefixSSLE = false := hasPrefix_false_of_ne hl rfl (by decide)
  have hsl : hasPrefix ssle prefixLNPR = false := hasPrefix_false_of_ne hs rfl (by decide)
  have hhm : hasPrefix lnpr prefixHMVE = false := hasPrefix_false_of_ne hl rfl (by decide)
  have hslot : InSlot lnpr out := inSlot_iff.mpr ⟨before, _, hlead, hout⟩
  have hpre : before ⊆ txs.filter isOther := hothers ▸ List.subset_append_left _ _
  have hpost : after ⊆ txs.filter isOther := hothers ▸ List.subset_append_right _ _
  refine ⟨⟨before, after, hout, ?_, hothers⟩, ?_, ?_, fun blob hd => hslot.findLNPRAt hd⟩
  · rw [hout]
    rcases hlead with rfl | ⟨hm, hhm', rfl⟩
    · simp [expectedLNPRIndex, hhm]
    · simp [expectedLNPRIndex, hhm']
  · rw [hout, List.filter_append, filter_others (.inl rfl) hpre]
    simp [hl, hsl, filter_others (.inl rfl) hpost]
  · rw [hout, List.filter_append, filter_others (.inr rfl) hpre]
    simp [hs, hls, filter_others (.inr rfl) hpost]

/-- A stale record, a stale ticket and a vote extension that only the ticket's removal brings to the front of
the rest. -/
theorem injection_slots_stale :
    injectSSLE (injectLNPR [prefixSSLE ++ [1], prefixLNPR ++ [2], prefixHMVE, [3]] prefixLNPR) prefixSSLE =
      [prefixLNPR, prefixSSLE, prefixHMVE, [3]] ∧
    ∃ before after,
      injectSSLE (injectLNPR [prefixSSLE ++ [1], prefixLNPR ++ [2], prefixHMVE, [3]] prefixLNPR) prefixSSLE =
      before ++ prefixLNPR :: prefixSSLE :: after ∧ before ++ after = [prefixHMVE, [3]] := by
  refine ⟨by decide, ?_⟩
  obtain ⟨⟨before, after, hout, -, hothers⟩, -⟩ :=
    injection_slots [prefixSSLE ++ [1], prefixLNPR ++ [2], prefixHMVE, [3]] prefixLNPR prefixSSLE (by decide)
      (by decide)
  exact ⟨before, after, hout, hothers.trans (by decide)⟩

end Terpz.Leanval.Keeper
