import Terpz.Leanval.Keeper.Reach

/-! When a set participation bit has weight behind it. A departure stores the balance byte 0
and an admission keeps any stored byte, so a slot that was left can be admitted again but
never gets weight back. -/
namespace Terpz.Leanval
open Lib

namespace Roster
variable {σ : Type} [DecidableEq σ]

/-- No enrolment in the list goes to a slot whose stored byte is zero at that moment. -/
def Opens (r : Roster σ) : List (Act σ) → Prop
  | [] => True
  | .enroll s w :: as => r.eb (r.slot s) ≠ some 0 ∧ (r.enroll s w).Opens as
  | .drop s :: as => (r.drop s).Opens as

instance decidableOpens (r : Roster σ) : (as : List (Act σ)) → Decidable (r.Opens as)
  | [] => isTrue trivial
  | .enroll s w :: as => @instDecidableAnd _ _ _ (decidableOpens (r.enroll s w) as)
  | .drop s :: as => decidableOpens (r.drop s) as

/-- Every set flag has a non-zero byte. -/
def Weighted (r : Roster σ) : Prop := ∀ i, r.bit i = true → ∃ b, r.eb i = some b ∧ b ≠ 0

/-- A numbered subject whose flag is down has left: its byte is an explicit zero. -/
def Departed (r : Roster σ) : Prop := ∀ s i, r.index s = some i → r.bit i = false → r.eb i = some 0

private theorem weighted_enroll {r : Roster σ} (h : r.Weighted) {s : σ} {w : Int64} (hw : w > 0)
    (ho : r.eb (r.slot s) ≠ some 0) : (r.enroll s w).Weighted := by
  intro i hi
  rw [bit_enroll hw] at hi
  rw [eb_enroll hw]
  by_cases he : r.eb i = none
  · by_cases hs : i = r.slot s
    · exact ⟨_, if_pos ⟨hs, he⟩, Keeper.ebFromWeight_ne_zero hw⟩
    · rw [if_neg hs] at hi
      obtain ⟨b, hb, _⟩ := h i hi
      rw [he] at hb
      cases hb
  · rw [if_neg (fun hc => he hc.2)]
    by_cases hs : i = r.slot s
    · obtain ⟨b, hb⟩ := Option.ne_none_iff_exists'.mp he
      refine ⟨b, hb, ?_⟩
      rintro rfl
      exact ho (hs ▸ hb)
    · rw [if_neg hs] at hi
      exact h i hi

private theorem weighted_drop {r : Roster σ} (h : r.Weighted) (s : σ) : (r.drop s).Weighted := by
  intro i hi
  rw [bit_drop] at hi
  rw [eb_drop]
  split at hi
  · cases hi
  · rename_i hs
    rw [if_neg hs]
    exact h i hi

/-- Enrolments to open slots keep weight behind every flag. -/
theorem Weighted.acts {r : Roster σ} (h : r.Weighted) {as : List (Act σ)}
    (hw : ∀ s w, .enroll s w ∈ as → w > 0) (ho : r.Opens as) : (r.acts as).Weighted := by
  induction as generalizing r with
  | nil => exact h
  | cons a as ih =>
    have hw' : ∀ s w, .enroll s w ∈ as → w > 0 := fun s w hm => hw s w (List.mem_cons_of_mem _ hm)
    cases a with
    | enroll s w =>
      obtain ⟨hs, ho⟩ := ho
      exact ih (weighted_enroll h (hw s w List.mem_cons_self) hs) hw' ho
    | drop s => exact ih (weighted_drop h s) hw' ho

private theorem eb_zero_act {r : Roster σ} {i : UInt32} (h : r.eb i = some 0) (a : Act σ) :
    (r.act a).eb i = some 0 := by
  cases a with
  | enroll s w =>
    simp only [act, enroll]
    split
    · rename_i hc
      rw [Function.update_of_ne, h]
      rintro rfl
      rw [h] at hc
      cases hc.2
    · exact h
  | drop s =>
    rw [act, eb_drop]
    split
    · rfl
    · exact h

theorem Opens.not_enroll {r : Roster σ} {as : List (Act σ)} (ho : r.Opens as) {s : σ} {i : UInt32}
    (hi : r.index s = some i) (hz : r.eb i = some 0) (w : Int64) : .enroll s w ∉ as := by
  induction as generalizing r with
  | nil => exact List.not_mem_nil
  | cons a as ih =>
    have htail : (r.act a).Opens as := by
      cases a with
      | enroll t v => exact ho.2
      | drop t => exact ho
    intro hm
    rcases List.mem_cons.mp hm with rfl | hm
    · refine ho.1 ?_
      rw [slot_of_index hi, hz]
    · exact ih htail (index_act_of_some hi a) (eb_zero_act hz a) hm

theorem Departed.acts {r : Roster σ} (h : r.Departed) {as : List (Act σ)}
    (hw : ∀ s w, .enroll s w ∈ as → w > 0) : (r.acts as).Departed := by
  induction as generalizing r with
  | nil => exact h
  | cons a as ih =>
    refine ih ?_ (fun s w hm => hw s w (List.mem_cons_of_mem _ hm))
    cases a with
    | enroll s w =>
      have hpos := hw s w List.mem_cons_self
      intro t i hi hb
      rw [act, bit_enroll hpos] at hb
      rw [act, index_enroll] at hi
      by_cases hs : i = r.slot s
      · simp [hs] at hb
      · rw [if_neg hs] at hb
        rw [act, eb_enroll hpos, if_neg (fun hc => hs hc.1)]
        by_cases ht : t = s
        · rw [if_pos ht] at hi
          exact absurd (Option.some.inj hi).symm hs
        · rw [if_neg ht] at hi
          exact h t i hi hb
    | drop s =>
      intro t i hi hb
      rw [act, index_drop] at hi
      rw [act, bit_drop] at hb
      rw [act, eb_drop]
      by_cases hs : r.index s = some i
      · rw [if_pos hs]
      · rw [if_neg hs] at hb ⊢
        exact h t i hi hb

theorem opens_of_enrolls {r : Roster σ} (hz : ∀ i, r.eb i ≠ some 0) {as : List (Act σ)}
    (has : ∀ a ∈ as, ∃ s w, a = .enroll s w ∧ w > 0) : r.Opens as := by
  induction as generalizing r with
  | nil => trivial
  | cons a as ih =>
    obtain ⟨s, w, rfl, hw⟩ := has a List.mem_cons_self
    refine ⟨hz _, ih ?_ (fun b hb => has b (List.mem_cons_of_mem _ hb))⟩
    intro i
    rw [eb_enroll hw]
    split
    · intro he
      exact Keeper.ebFromWeight_ne_zero hw (Option.some.inj he)
    · exact hz i

end Roster

namespace Keeper

/-- The condition on one operation: its admissions go to slots without a stored zero byte. -/
def OpensSlots (h : Host) (st : Store) (op : Op) : Prop := (roster st).Opens (opActs h st op)

instance (h : Host) (st : Store) (op : Op) : Decidable (OpensSlots h st op) :=
  Roster.decidableOpens _ _

private structure Carried (st : Store) : Prop where
  sound : Sound st
  weighted : (roster st).Weighted
  departed : (roster st).Departed

private theorem carried_genesis (gs : GenesisState) : Carried (genesisStore ∅ gs) := by
  have has : ∀ a ∈ gs.genesisSubjects.filterMap seedAct, ∃ s w, a = .enroll s w ∧ w > 0 := by
    intro a ha
    obtain ⟨s, _, hs⟩ := List.mem_filterMap.mp ha
    obtain ⟨rfl, _, hw⟩ := seedAct_eq_some hs
    exact ⟨_, _, rfl, hw⟩
  have hw (s : Bytes) (w : Int64) (hm : .enroll s w ∈ gs.genesisSubjects.filterMap seedAct) : w > 0 := by
    obtain ⟨_, _, he, hw⟩ := has _ hm
    obtain ⟨_, rfl⟩ := Act.enroll.inj he
    exact hw
  refine ⟨sound_empty.genesisStore gs, ?_, ?_⟩
  · rw [roster_genesisStore]
    refine Roster.Weighted.acts (by intro i; simp) hw (Roster.opens_of_enrolls (by simp) has)
  · rw [roster_genesisStore]
    exact Roster.Departed.acts (by intro s i; simp) hw

private theorem carried_step {h : Host} {st : Store} (op : Op) (hc : Carried st) (ho : OpensSlots h st op) :
    Carried (opStep h st op) := by
  have hw (s : Bytes) (w : Int64) (hm : .enroll s w ∈ opActs h st op) : w > 0 := (hc.sound.opActs hm).2
  refine ⟨hc.sound.op h op, ?_, ?_⟩
  · rw [roster_opStep hc.sound]
    exact hc.weighted.acts hw ho
  · rw [roster_opStep hc.sound]
    exact hc.departed.acts hw

/-- In a run whose admissions all go to slots without a stored zero byte, every set bit of every
state has an effective balance from 1 to 255. The second part has no instance in such a run: what
a subject leaves behind is a stored zero, and no admission ever restores the balance. -/
theorem member_has_weight (h : Host) {gs : GenesisState} {st0 : Store} (hg : initGenesis ∅ gs = .ok st0)
    {ops : List Op} (ho : Along (opStep h) (OpensSlots h) st0 ops) :
    (∀ pre, pre <+: ops → ∀ i, bitIsSet (run (opStep h) st0 pre) i = true →
      1 ≤ (ebOf (run (opStep h) st0 pre) i).toNat ∧ (ebOf (run (opStep h) st0 pre) i).toNat ≤ 255) ∧
    (∀ pre op, pre ++ [op] <+: ops → ∀ s w i, depositIndexOf (run (opStep h) st0 pre) s = some i →
      bitIsSet (run (opStep h) st0 pre) i = false → .enroll s w ∈ opActs h (run (opStep h) st0 pre) op →
      ((ebOf (run (opStep h) st0 (pre ++ [op])) i).toNat : Int) = min w.toInt 255) := by
  obtain rfl := initGenesis_eq_ok hg
  have hinv (pre : List Op) (hp : pre <+: ops) : Carried (run (opStep h) (genesisStore ∅ gs) pre) :=
    ho.invariant_at (fun _ op hc ho => carried_step op hc ho) (carried_genesis gs) hp
  refine ⟨?_, ?_⟩
  · intro pre hp i hi
    obtain ⟨b, hb, hne⟩ := (hinv pre hp).weighted i hi
    rw [ebOf_eq, hb]
    have hlt := b.toNat_lt
    have hpos : b.toNat ≠ 0 := fun h0 => hne (UInt8.toNat_inj.mp h0)
    exact ⟨Nat.pos_of_ne_zero hpos, by simp only [Option.getD_some]; omega⟩
  · intro pre op hp s w i hs hb hm
    obtain ⟨post, rfl⟩ := hp
    rw [List.append_assoc] at ho
    -- the subject's byte is a stored zero, so the condition excludes this admission
    have hz := (hinv pre ⟨[op] ++ post, by rw [List.append_assoc]⟩).departed s i hs hb
    exact absurd hm (Roster.Opens.not_enroll ho.at_step hs hz w)

/-- One validator joins and the other leaves. -/
theorem member_has_weight_solo :
    let ops : List Op := [.applyJoin ⟨0, keyOf 0xb1, 300, []⟩, .applyLeave ⟨0, keyOf 0xa1⟩, .validatorUpdates 0]
    bitIsSet (run (opStep dummyHost) (genesisStore ∅ soloGenesis) ops) 1 = true ∧
      1 ≤ (ebOf (run (opStep dummyHost) (genesisStore ∅ soloGenesis) ops) 1).toNat ∧
      (ebOf (run (opStep dummyHost) (genesisStore ∅ soloGenesis) ops) 1).toNat ≤ 255 := by
  intro ops
  have hb : bitIsSet (run (opStep dummyHost) (genesisStore ∅ soloGenesis) ops) 1 = true := by decide +kernel
  have ho : Along (opStep dummyHost) (OpensSlots dummyHost) (genesisStore ∅ soloGenesis) ops := by decide +kernel
  have hg : initGenesis ∅ soloGenesis = .ok (genesisStore ∅ soloGenesis) := rfl
  exact ⟨hb, (member_has_weight dummyHost hg ho).1 ops (List.prefix_refl _) 1 hb⟩

/-- A validator leaves and joins again with weight 7: its bit is set, its balance is zero. -/
theorem rejoined_member_without_weight :
    initGenesis ∅ soloGenesis = .ok (genesisStore ∅ soloGenesis) ∧
    (let st := run (opStep dummyHost) (genesisStore ∅ soloGenesis)
      [.applyLeave ⟨0, keyOf 0xa1⟩, .applyJoin ⟨0, keyOf 0xa1, 7, []⟩]
    depositIndexOf st (keyOf 0xa1) = some 0 ∧ bitIsSet st 0 = true ∧ ebOf st 0 = 0) := by
  refine ⟨rfl, ?_⟩
  decide +kernel

end Keeper
end Terpz.Leanval
