import Terpz.Leanval.Keeper.Reach

/-! When an accepted LNPR leaves somebody in the set. The gate refuses the empty record, but a
record of weight-0 rows that covers the roster is accepted and clears every bit. -/
namespace Terpz.Leanval.Keeper
open Lib

/-- Some set bit is not named by a leaving row, or some row admits a named subject. -/
def Survives (st : Store) (blob : LNPRBlob) : Prop :=
  (∃ i, bitIsSet st i = true ∧ ∀ row ∈ blob.subjects, row.weight ≤ 0 → depositIndexOf st row.subject ≠ some i) ∨
  (∃ row ∈ blob.subjects, row.weight > 0 ∧ row.subject ≠ [])

private theorem survives_bit {r : Roster Bytes} (hwf : r.WF) {rows : List SubjectProof}
    (hn : (rows.map (·.subject)).Nodup) (hc : (r.acts (lnprActs rows)).count < 2 ^ 32) {i : UInt32}
    (hb : r.bit i = true) (hkeep : ∀ row ∈ rows, row.weight ≤ 0 → r.index row.subject ≠ some i) :
    (r.acts (lnprActs rows)).bit i = true := by
  obtain ⟨s, hs⟩ := hwf.index_surj i (hwf.bit_lt i hb)
  by_cases hm : s ∈ (lnprActs rows).map Act.subject
  · obtain ⟨a, ha, rfl⟩ := List.mem_map.mp hm
    cases a with
    | drop t =>
      obtain ⟨row, hrow, rfl, hw, _⟩ := mem_lnprActs_drop.mp ha
      exact absurd hs (hkeep row hrow hw)
    | enroll t w =>
      obtain ⟨_, _, _, _, _, hw⟩ := mem_lnprActs_enroll.mp ha
      have hs : r.index t = some i := hs
      obtain ⟨pre, post, hsplit⟩ := List.append_of_mem ha
      obtain ⟨_, hbit, _⟩ := Roster.acts_enroll hwf hc (lnprActs_nodup hn) hsplit hw
      rwa [Roster.slot_of_index (Roster.index_acts_of_some hs pre)] at hbit
  · rw [(Roster.acts_untouched hwf hc hs hm).1]
    exact hb

/-- A live set survives an accepted record exactly when the record spares a member or admits
a subject. -/
theorem live_set_survives_iff (h : Host) {st : Store} (hr : Reachable h st) {blob : LNPRBlob}
    (hlive : ∃ i, bitIsSet st i = true) (hv : (verifyLNPR h st blob false).2 = .ok ())
    (hc : (roster (applyLNPR h st blob).1).count < 2 ^ 32) :
    (∃ i, bitIsSet (applyLNPR h st blob).1 i = true) ↔ Survives st blob := by
  have hs := hr.sound
  obtain ⟨i0, hi0⟩ := hlive
  have hcount : (roster st).count < 2 ^ 32 := by
    have hle := (roster st).count_le_acts (opActs h st (.applyLNPR blob))
    rw [← roster_applyLNPR hs] at hle
    omega
  have hwf := hs.wf hcount
  have hacts := roster_applyLNPR_live hs (debugSubjectsFromBits_ne_nil (hwf.bit_lt i0 hi0) hi0) hv
  have hn := verifyLNPR_ok_nodup hv
  rw [hacts] at hc
  have hwf' := Roster.acts_wf hwf _ hc
  have hbit (i : UInt32) : bitIsSet (applyLNPR h st blob).1 i = ((roster st).acts (lnprActs blob.subjects)).bit i := by
    rw [← hacts]
    rfl
  constructor
  · rintro ⟨i, hi⟩
    rw [hbit] at hi
    obtain ⟨s, hsi⟩ := hwf'.index_surj i (hwf'.bit_lt i hi)
    by_cases hm : s ∈ (lnprActs blob.subjects).map Act.subject
    · obtain ⟨a, ha, rfl⟩ := List.mem_map.mp hm
      cases a with
      | enroll t w =>
        obtain ⟨row, hrow, rfl, rfl, hne, hw⟩ := mem_lnprActs_enroll.mp ha
        exact .inr ⟨row, hrow, hw, hne⟩
      | drop t =>
        -- a row that left either had a number, and its bit is down now, or has none still
        cases ht : (roster st).index t with
        | some j =>
          obtain rfl := Option.some.inj ((Roster.index_acts_of_some ht _).symm.trans hsi)
          rw [(Roster.acts_drop hwf hc (lnprActs_nodup hn) ha ht).1] at hi
          cases hi
        | none =>
          have hnone : ((roster st).acts (lnprActs blob.subjects)).index t = none := by
            refine Roster.index_acts_of_none ht ?_
            intro w hw
            exact absurd (List.inj_on_of_nodup_map (lnprActs_nodup hn) ha hw rfl) (by simp)
          cases hnone.symm.trans hsi
    · cases ht : (roster st).index s with
      | none =>
        have hnone : ((roster st).acts (lnprActs blob.subjects)).index s = none :=
          Roster.index_acts_of_none ht (fun w hw => hm (List.mem_map.mpr ⟨_, hw, rfl⟩))
        cases hnone.symm.trans hsi
      | some j =>
        obtain rfl := Option.some.inj ((Roster.index_acts_of_some ht _).symm.trans hsi)
        refine .inl ⟨j, ?_, ?_⟩
        · rw [(Roster.acts_untouched hwf hc ht hm).1] at hi
          exact hi
        · intro row hrow hw hidx
          obtain rfl := hwf.index_inj s row.subject j ht hidx
          refine hm (List.mem_map.mpr ⟨.drop row.subject, mem_lnprActs_drop.mpr ⟨row, hrow, rfl, hw, ?_⟩, rfl⟩)
          intro hnil
          rw [hnil, hs.subject_ne] at ht
          cases ht
  · rintro (⟨i, hi, hkeep⟩ | ⟨row, hrow, hw, hne⟩)
    · exact ⟨i, (hbit i).trans (survives_bit hwf hn hc hi hkeep)⟩
    · have ha : .enroll row.subject row.weight ∈ lnprActs blob.subjects :=
        mem_lnprActs_enroll.mpr ⟨row, hrow, rfl, rfl, hne, hw⟩
      obtain ⟨pre, post, hsplit⟩ := List.append_of_mem ha
      exact ⟨_, (hbit _).trans (Roster.acts_enroll hwf hc (lnprActs_nodup hn) hsplit hw).2.1⟩

/-- The only member listed with weight 0, proved over the committed roots. -/
def wipingBlob : LNPRBlob :=
  ⟨0, [⟨keyOf 0xa1, 0, dummyStwoProveBoundRoots 0 (keyOf 0xa1) 0 (lastObjectRoots (genesisStore ∅ soloGenesis))⟩]⟩

/-- The only member listed again with its weight. -/
def refreshBlob : LNPRBlob :=
  ⟨0, [⟨keyOf 0xa1, 10, dummyStwoProveBoundRoots 0 (keyOf 0xa1) 10 (lastObjectRoots (genesisStore ∅ soloGenesis))⟩]⟩

private theorem solo_reachable : Reachable dummyHost (genesisStore ∅ soloGenesis) :=
  ⟨soloGenesis, _, [], rfl, rfl⟩

theorem live_set_survives_refresh :
    (∃ i, bitIsSet (applyLNPR dummyHost (genesisStore ∅ soloGenesis) refreshBlob).1 i = true) ∧
      Survives (genesisStore ∅ soloGenesis) refreshBlob := by
  have hs : Survives (genesisStore ∅ soloGenesis) refreshBlob :=
    .inr ⟨_, List.mem_cons_self, by decide, by decide⟩
  have hfacts : bitIsSet (genesisStore ∅ soloGenesis) 0 = true ∧
      (verifyLNPR dummyHost (genesisStore ∅ soloGenesis) refreshBlob false).2 = .ok () ∧
      (roster (applyLNPR dummyHost (genesisStore ∅ soloGenesis) refreshBlob).1).count < 2 ^ 32 := by
    decide +kernel
  obtain ⟨hb, hv, hc⟩ := hfacts
  exact ⟨(live_set_survives_iff dummyHost solo_reachable ⟨0, hb⟩ hv hc).mpr hs, hs⟩

/-- An accepted record of weight-0 rows clears the last bit. -/
theorem accepted_lnpr_wipes_live_set :
    Reachable dummyHost (genesisStore ∅ soloGenesis) ∧ bitIsSet (genesisStore ∅ soloGenesis) 0 = true ∧
    (verifyLNPR dummyHost (genesisStore ∅ soloGenesis) wipingBlob false).2 = .ok () ∧
    (∀ i, bitIsSet (applyLNPR dummyHost (genesisStore ∅ soloGenesis) wipingBlob).1 i = false) := by
  have hfacts : bitIsSet (genesisStore ∅ soloGenesis) 0 = true ∧
      (verifyLNPR dummyHost (genesisStore ∅ soloGenesis) wipingBlob false).2 = .ok () ∧
      bitfield (applyLNPR dummyHost (genesisStore ∅ soloGenesis) wipingBlob).1 = [0] := by
    decide +kernel
  obtain ⟨hb, hv, hbf⟩ := hfacts
  refine ⟨solo_reachable, hb, hv, ?_⟩
  intro i
  rw [bitIsSet, hbf]
  exact bitGet_zero i

end Terpz.Leanval.Keeper
