import Terpz.Lib.Overwrite
import Terpz.Leanval.Keeper.Powers

/-! The validator set Comet folds from the update batches, over whole runs of blocks: it is
the last-power table, and its keys are the members with a balance. -/
namespace Terpz.Leanval.Keeper
open Lib Lib.BigEndian Lib.PrefixStore Function

abbrev ValidatorSet := Bytes → Option Int64

/-- A power of zero removes the key. -/
def ValidatorSet.apply (vs : ValidatorSet) (u : ValidatorUpdate) : ValidatorSet :=
  update vs u.pubKey (if u.power = 0 then none else some u.power)

def foldUpdates (vs : ValidatorSet) (ups : List ValidatorUpdate) : ValidatorSet := ups.foldl ValidatorSet.apply vs

/-- The application's store beside the set Comet has built so far. -/
structure Chain where
  store : Store
  comet : ValidatorSet

structure Block where
  blob : LNPRBlob
  period : UInt64

def Chain.endBlock (c : Chain) (period : UInt64) : Chain :=
  ⟨(validatorUpdates c.store period).1, foldUpdates c.comet (validatorUpdates c.store period).2⟩

def initChain (st : Store) : Chain := Chain.endBlock ⟨st, fun _ => none⟩ 0

def deliver (h : Host) (c : Chain) (b : Block) : Chain := ⟨(applyLNPR h c.store b.blob).1, c.comet⟩

/-- The updates a block returns to Comet. -/
def batch (h : Host) (c : Chain) (b : Block) : List ValidatorUpdate :=
  (validatorUpdates (deliver h c b).store b.period).2

def blockStep (h : Host) (c : Chain) (b : Block) : Chain := (deliver h c b).endBlock b.period

def Accepted (h : Host) (c : Chain) (b : Block) : Prop := (verifyLNPR h c.store b.blob false).2 = .ok ()

/-- A batch Comet can apply: one entry a key, and only validators of the set are removed. -/
def GoodBatch (vs : ValidatorSet) (ups : List ValidatorUpdate) : Prop :=
  (ups.map (·.pubKey)).Nodup ∧ ∀ u ∈ ups, u.power = 0 → vs u.pubKey ≠ none

structure CometView (c : Chain) : Prop where
  powers : ∀ s, c.comet s = if lastPower c.store s = 0 then none else some (lastPower c.store s)
  keys : ∀ s, c.comet s ≠ none ↔
    s.length = 32 ∧ ∃ i, depositIndexOf c.store s = some i ∧ bitIsSet c.store i = true ∧ ebOf c.store i > 0
  bounds : ∀ s p, c.comet s = some p →
    ∃ i, depositIndexOf c.store s = some i ∧ 1 ≤ p.toInt ∧ p.toInt ≤ (ebOf c.store i).toNat

private theorem foldUpdates_eq (vs : ValidatorSet) (ups : List ValidatorUpdate) :
    foldUpdates vs ups = overwrite vs (ups.map (fun u => (u.pubKey, if u.power = 0 then none else some u.power))) := by
  rw [overwrite, List.foldl_map]
  rfl

theorem foldUpdates_of_not_mem {ups : List ValidatorUpdate} {s : Bytes} (h : s ∉ ups.map (·.pubKey))
    (vs : ValidatorSet) : foldUpdates vs ups s = vs s := by
  rw [foldUpdates_eq]
  exact overwrite_of_not_mem (by rwa [List.map_map]) vs

theorem foldUpdates_of_mem {ups : List ValidatorUpdate} (hn : (ups.map (·.pubKey)).Nodup) {s : Bytes} {w : Int64}
    (h : ⟨s, w⟩ ∈ ups) (vs : ValidatorSet) : foldUpdates vs ups s = if w = 0 then none else some w := by
  have hkeys : ((ups.map (fun u => (u.pubKey, if u.power = 0 then none else some u.power))).map Prod.fst).Nodup := by
    rwa [List.map_map]
  rw [foldUpdates_eq]
  exact overwrite_of_mem hkeys (List.mem_map.mpr ⟨_, h, rfl⟩) vs

/-- The folded set is the last-power table without its zeros. -/
def Mirrors (vs : ValidatorSet) (st : Store) : Prop :=
  ∀ s, vs s = if lastPower st s = 0 then none else some (lastPower st s)

theorem Mirrors.ne_none_iff {vs : ValidatorSet} {st : Store} (hm : Mirrors vs st) {s : Bytes} :
    vs s ≠ none ↔ lastPower st s ≠ 0 := by
  rw [hm s]
  by_cases h : lastPower st s = 0
  · simp [h]
  · simp [h]

theorem Mirrors.sendUpdates {vs : ValidatorSet} {st : Store} (hm : Mirrors vs st) (bits : Bool)
    {rows : List SubjectPower} (hn : (rows.map (·.subject)).Nodup)
    (hlen : ∀ s, lastPower st s ≠ 0 → s.length = 32) :
    Mirrors (foldUpdates vs (Keeper.sendUpdates st bits rows).2) (Keeper.sendUpdates st bits rows).1 := by
  intro s
  by_cases hex : ∃ w, ⟨s, w⟩ ∈ (Keeper.sendUpdates st bits rows).2
  · obtain ⟨w, hw⟩ := hex
    have hlast : lastPower (Keeper.sendUpdates st bits rows).1 s = w := by
      rcases (mem_sendUpdates hn).mp hw with ⟨r, hr, rfl, hp⟩ | ⟨rfl, hout, _⟩
      · rw [sendUpdates_power_row hn hr (rowPower_length hp), hp]
        rfl
      · exact sendUpdates_power_other hout
    rw [foldUpdates_of_mem (sendUpdates_nodup hn) hw, hlast]
  · have hnot : s ∉ (Keeper.sendUpdates st bits rows).2.map (·.pubKey) := by
      intro hmem
      obtain ⟨u, hu, rfl⟩ := List.mem_map.mp hmem
      exact hex ⟨u.power, hu⟩
    have hlast : lastPower (Keeper.sendUpdates st bits rows).1 s = lastPower st s := by
      by_cases hseen : s ∈ (cometRows rows).map (·.subject)
      · obtain ⟨hl, hmem⟩ := mem_seen.mp hseen
        obtain ⟨r, hr, rfl⟩ := List.mem_map.mp hmem
        rw [sendUpdates_power_row hn hr hl]
        cases hp : rowPower bits (existingTotal st rows) (lastPower st r.subject) r with
        | none => rfl
        | some w => exact absurd ⟨w, (mem_sendUpdates hn).mpr (.inl ⟨r, hr, rfl, hp⟩)⟩ hex
      · rw [sendUpdates_power_other hseen]
        by_contra hne
        have hne := Ne.symm hne
        exact hex ⟨0, (mem_sendUpdates hn).mpr (.inr ⟨rfl, hseen, hne, hlen s hne⟩)⟩
    rw [foldUpdates_of_not_mem hnot, hm s, hlast]

/-- While the roster is kept in bits a row never sends a zero. -/
theorem rowPower_bits_ne_zero {ex prev w : Int64} {r : SubjectPower} (h : rowPower true ex prev r = some w) :
    w ≠ 0 := by
  unfold rowPower at h
  split at h
  · cases h
  · split at h
    · cases h
    · rename_i hw
      simp only [Bool.true_and, Bool.or_eq_true, beq_iff_eq, not_or] at hw
      split at h
      · obtain rfl := Option.some.inj h
        split
        · decide
        · exact hw.2
      · split at h
        · cases h
        · split at h
          · cases h
          · obtain rfl := Option.some.inj h
            exact hw.2

theorem Mirrors.goodBatch {vs : ValidatorSet} {st : Store} (hm : Mirrors vs st) {rows : List SubjectPower}
    (hn : (rows.map (·.subject)).Nodup) : GoodBatch vs (Keeper.sendUpdates st true rows).2 := by
  refine ⟨sendUpdates_nodup hn, ?_⟩
  rintro ⟨s, w⟩ hu rfl
  rcases (mem_sendUpdates hn).mp hu with ⟨r, _, _, hp⟩ | ⟨_, _, hne, _⟩
  · exact absurd rfl (rowPower_bits_ne_zero hp)
  · exact hm.ne_none_iff.mpr hne

/-- Nobody with power sits in the roster with an empty balance. -/
def Current (st : Store) : Prop :=
  ∀ s i, lastPower st s ≠ 0 → (roster st).index s = some i → (roster st).bit i = true → ebOf st i ≠ 0

section Updates
variable {st : Store} (hs : Sound st) (hwf : (roster st).WF) (hp : PowersSent st) (hcur : Current st)
include hs hwf hp hcur

/-- After the updates a subject has power exactly when it is a 32-byte member with a balance. -/
theorem lastPower_ne_zero_iff {s : Bytes} :
    lastPower (sendUpdates st true (debugSubjectsFromBits st)).1 s ≠ 0 ↔
      s.length = 32 ∧ ∃ i, (roster st).index s = some i ∧ (roster st).bit i = true ∧ ebOf st i ≠ 0 := by
  constructor
  · intro hne
    have hseen : s ∈ (cometRows (debugSubjectsFromBits st)).map (·.subject) := by
      by_contra hout
      exact hne (sendUpdates_power_other hout)
    obtain ⟨hl, i, hi, hb⟩ := (mem_seen_members hs hwf).mp hseen
    refine ⟨hl, i, hi, hb, ?_⟩
    intro he
    have hpow := member_power hs hwf hi hb hl
    rw [if_pos he, Int64.toInt_inj] at hpow
    rw [hpow] at hne
    exact hcur s i hne hi hb he
  · rintro ⟨hl, i, hi, hb, he⟩
    have hpow := member_power hs hwf hi hb hl
    have hpos : 0 < (ebOf st i).toNat := Nat.pos_of_ne_zero (fun h0 => he (UInt8.toNat_inj.mp h0))
    rw [if_neg he] at hpow
    rw [ne_eq, int64_eq_zero_iff, hpow]
    by_cases hz : lastPower st s = 0
    · rw [if_pos hz]
      split <;> omega
    · rw [if_neg hz]
      obtain ⟨hprev, _⟩ := hp s hz
      omega

end Updates

/-- What a chain satisfies between blocks. -/
structure Settled (c : Chain) : Prop where
  sound : Sound c.store
  sent : PowersSent c.store
  view : CometView c
  numbered : ∃ s i, (roster c.store).index s = some i

/-- A store that only sent powers since `st` is seen by Comet as it is. -/
private theorem view_of_mirrors {st st' : Store} {vs : ValidatorSet} (hr : roster st' = roster st)
    (hm : Mirrors vs st') (hp : PowersSent st')
    (hiff : ∀ s, lastPower st' s ≠ 0 ↔
      s.length = 32 ∧ ∃ i, (roster st).index s = some i ∧ (roster st).bit i = true ∧ ebOf st i ≠ 0) :
    CometView ⟨st', vs⟩ := by
  have heb (i : UInt32) : ebOf st' i = ebOf st i := by rw [ebOf_eq, ebOf_eq, hr]
  have hidx (s : Bytes) : depositIndexOf st' s = (roster st).index s := congrArg (fun r => r.index s) hr
  have hbit (i : UInt32) : bitIsSet st' i = (roster st).bit i := congrArg (fun r => r.bit i) hr
  refine ⟨hm, ?_, ?_⟩
  · intro s
    simp only [hm.ne_none_iff, hiff, hidx, hbit, heb, gt_iff_lt, UInt8.pos_iff_ne_zero]
  · intro s p hsp
    have hsp : vs s = some p := hsp
    have hne : lastPower st' s ≠ 0 := hm.ne_none_iff.mp (by simp [hsp])
    obtain ⟨_, i, hi, _, he⟩ := (hiff s).mp hne
    rw [hm s, if_neg hne] at hsp
    obtain rfl := Option.some.inj hsp
    obtain ⟨hpos, _, _, i', b, hi', hb, hle⟩ := hp s hne
    rw [hr] at hi' hb
    obtain rfl := Option.some.inj (hi.symm.trans hi')
    obtain rfl := Option.some.inj ((eb_of_ebOf_ne_zero he).symm.trans hb)
    refine ⟨i, (hidx s).trans hi, hpos, ?_⟩
    rw [heb]
    exact hle.resolve_left he

/-- Sending the updates of a store kept in bits settles the chain. -/
theorem endBlock_settled {c : Chain} (hs : Sound c.store) (hwf : (roster c.store).WF) (hp : PowersSent c.store)
    (hcur : Current c.store) (hm : Mirrors c.comet c.store) (hnum : ∃ s i, (roster c.store).index s = some i)
    (period : UInt64) : Settled (c.endBlock period) ∧ GoodBatch c.comet (validatorUpdates c.store period).2 := by
  obtain ⟨t, j, htj⟩ := hnum
  have hvu : validatorUpdates c.store period = sendUpdates c.store true (debugSubjectsFromBits c.store) := by
    rw [validatorUpdates, if_pos (usingBits_of_index hwf htj)]
  have hn := debugSubjectsFromBits_nodup hs hwf
  have hroster := roster_sendUpdates c.store true (debugSubjectsFromBits c.store)
  have hsent := hp.sendUpdates hs hwf
  have hmir := hm.sendUpdates true hn (fun s hne => (hp s hne).2.2.1)
  have hview := view_of_mirrors hroster hmir hsent (fun s => lastPower_ne_zero_iff hs hwf hp hcur)
  have hnum : (roster (sendUpdates c.store true (debugSubjectsFromBits c.store)).1).index t = some j := by
    rw [hroster]
    exact htj
  rw [Chain.endBlock, hvu]
  exact ⟨⟨hs.sendUpdates _ _, hsent, hview, ⟨t, j, hnum⟩⟩, hm.goodBatch hn⟩

/-- An accepted record empties nobody's balance and keeps the bit. -/
private theorem deliver_current {h : Host} {c : Chain} {b : Block} (hS : Settled c) (hv : Accepted h c b)
    (hc : (roster (deliver h c b).store).count < 2 ^ 32) : Current (deliver h c b).store := by
  intro s i hne hi hb
  have hs := hS.sound
  have hlast := lastPower_eq_of_agree (agree_applyLNPR (b := lastUpdatesPrefix) (by decide) h c.store b.blob) s
  have hne0 : lastPower c.store s ≠ 0 := by
    rw [hlast]
    exact hne
  obtain ⟨_, j, hj, hbj, hpos⟩ := (hS.view.keys s).mp (Mirrors.ne_none_iff hS.view.powers |>.mpr hne0)
  have hpos := UInt8.pos_iff_ne_zero.mp hpos
  have hej := eb_of_ebOf_ne_zero hpos
  have hcount : (roster c.store).count < 2 ^ 32 := by
    have hle := (roster c.store).count_le_acts (opActs h c.store (.applyLNPR b.blob))
    rw [← roster_applyLNPR hs] at hle
    exact Nat.lt_of_le_of_lt hle hc
  have hwf := hs.wf hcount
  have hacts : roster (deliver h c b).store = (roster c.store).acts (lnprActs b.blob.subjects) :=
    roster_applyLNPR_live hs (debugSubjectsFromBits_ne_nil (hwf.bit_lt j hbj) hbj) hv
  have hn := lnprActs_nodup (verifyLNPR_ok_nodup hv)
  rw [ebOf_eq]
  rw [hacts] at hc hi hb ⊢
  obtain rfl := Option.some.inj ((Roster.index_acts_of_some hj _).symm.trans hi)
  have hkept : ((roster c.store).acts (lnprActs b.blob.subjects)).eb j = some (ebOf c.store j) := by
    by_cases hm : s ∈ (lnprActs b.blob.subjects).map Act.subject
    · obtain ⟨a, ha, rfl⟩ := List.mem_map.mp hm
      cases a with
      | enroll t w =>
        obtain ⟨_, _, _, _, _, hw⟩ := mem_lnprActs_enroll.mp ha
        exact (Roster.acts_enroll_stored hwf hc hn ha hw hj hej).2
      | drop t =>
        rw [(Roster.acts_drop hwf hc hn ha hj).1] at hb
        cases hb
    · exact (Roster.acts_untouched hwf hc hj hm).2.trans hej
  rw [hkept]
  exact hpos

/-- Blocks only add numbers. -/
theorem count_le_blockStep {c : Chain} (hs : Sound c.store) (h : Host) (b : Block) :
    (roster c.store).count ≤ (roster (deliver h c b).store).count ∧
      (roster (deliver h c b).store).count ≤ (roster (blockStep h c b).store).count := by
  constructor
  · exact (Roster.count_le_acts _ _).trans_eq (congrArg Roster.count (roster_applyLNPR hs h b.blob).symm)
  · exact (Roster.count_le_acts _ _).trans_eq (congrArg Roster.count (roster_validatorUpdates _ b.period).symm)

/-- One block keeps the chain settled and returns a batch Comet can apply. -/
theorem Settled.block {h : Host} {c : Chain} {b : Block} (hS : Settled c) (hv : Accepted h c b)
    (hc : (roster (blockStep h c b).store).count < 2 ^ 32) :
    Settled (blockStep h c b) ∧ GoodBatch c.comet (batch h c b) := by
  have hcd := Nat.lt_of_le_of_lt (count_le_blockStep hS.sound h b).2 hc
  have hs : Sound (deliver h c b).store := hS.sound.applyLNPR h b.blob
  have hroster := roster_applyLNPR hS.sound h b.blob
  have hlast := lastPower_eq_of_agree (agree_applyLNPR (b := lastUpdatesPrefix) (by decide) h c.store b.blob)
  have hmir : Mirrors (deliver h c b).comet (deliver h c b).store := by
    intro s
    have hp := hS.view.powers s
    rw [hlast] at hp
    exact hp
  obtain ⟨t, j, htj⟩ := hS.numbered
  have hnum : (roster (deliver h c b).store).index t = some j := by
    rw [deliver, hroster]
    exact Roster.index_acts_of_some htj _
  exact endBlock_settled hs (hs.wf hcd) (hS.sent.acts hlast hroster) (deliver_current hS hv hcd) hmir ⟨t, j, hnum⟩
    b.period

theorem sound_blockStep {c : Chain} (hs : Sound c.store) (h : Host) (b : Block) : Sound (blockStep h c b).store :=
  (hs.applyLNPR h b.blob).validatorUpdates b.period

theorem sound_blocks {c : Chain} (hs : Sound c.store) (h : Host) (blocks : List Block) :
    Sound (run (blockStep h) c blocks).store := by
  induction blocks generalizing c with
  | nil => exact hs
  | cons b blocks ih => exact ih (sound_blockStep hs h b)

theorem count_le_blocks {c : Chain} (hs : Sound c.store) (h : Host) (blocks : List Block) :
    (roster c.store).count ≤ (roster (run (blockStep h) c blocks).store).count := by
  induction blocks generalizing c with
  | nil => exact Nat.le_refl _
  | cons b blocks ih =>
    obtain ⟨h1, h2⟩ := count_le_blockStep hs h b
    exact (h1.trans h2).trans (ih (sound_blockStep hs h b))

theorem Settled.run {h : Host} {c : Chain} (hS : Settled c) {blocks : List Block}
    (hacc : Along (blockStep h) (Accepted h) c blocks)
    (hc : (roster (Lib.run (blockStep h) c blocks).store).count < 2 ^ 32) :
    Settled (Lib.run (blockStep h) c blocks) := by
  induction blocks generalizing c with
  | nil => exact hS
  | cons b blocks ih =>
    have hle := count_le_blocks (sound_blockStep hS.sound h b) h blocks
    exact ih (hS.block hacc.1 (Nat.lt_of_le_of_lt hle hc)).1 hacc.2 hc

/-- A genesis with an admitted subject settles at InitChain. -/
theorem initChain_settled {gs : GenesisState} (hpos : ∃ s ∈ gs.genesisSubjects, s.weight > 0 ∧ s.pubKey ≠ [])
    (hc : (roster (genesisStore ∅ gs)).count < 2 ^ 32) :
    Settled (initChain (genesisStore ∅ gs)) ∧ GoodBatch (fun _ => none) (validatorUpdates (genesisStore ∅ gs) 0).2 := by
  have hs := sound_empty.genesisStore gs
  obtain ⟨s, hmem, hw, hne⟩ := hpos
  have hact : .enroll s.pubKey s.weight ∈ gs.genesisSubjects.filterMap seedAct := by
    refine List.mem_filterMap.mpr ⟨s, hmem, ?_⟩
    have hl : ¬ s.pubKey.length = 0 := fun hl => hne (List.length_eq_zero_iff.mp hl)
    rw [seedAct, if_neg hl, if_pos hw]
  obtain ⟨pre, post, hsplit⟩ := List.append_of_mem hact
  have hnum : ∃ t i, (roster (genesisStore ∅ gs)).index t = some i := by
    refine ⟨s.pubKey, ((roster ∅).acts pre).slot s.pubKey, ?_⟩
    rw [roster_genesisStore, hsplit, Roster.acts_append, Roster.acts_cons]
    refine Roster.index_acts_of_some ?_ post
    rw [Roster.act, Roster.index_enroll, if_pos rfl]
  refine endBlock_settled (c := ⟨genesisStore ∅ gs, fun _ => none⟩) hs (hs.wf hc) (powersSent_genesis gs) ?_ ?_ hnum 0
  · intro t i hlp
    exact absurd (lastPower_genesis gs t) hlp
  · intro t
    rw [lastPower_genesis, if_pos rfl]

/-- Over every run of accepted blocks from a genesis that admits a subject, Comet's set is the
last-power table, its keys are the 32-byte members with a balance, and every batch applies. -/
theorem comet_view_over_runs (h : Host) {gs : GenesisState} {st0 : Store} (hg : initGenesis ∅ gs = .ok st0)
    (hpos : ∃ s ∈ gs.genesisSubjects, s.weight > 0 ∧ s.pubKey ≠ []) {blocks : List Block}
    (hacc : Along (blockStep h) (Accepted h) (initChain st0) blocks)
    (hc : (roster (run (blockStep h) (initChain st0) blocks).store).count < 2 ^ 32) :
    GoodBatch (fun _ => none) (validatorUpdates st0 0).2 ∧
    (∀ pre, pre <+: blocks → CometView (run (blockStep h) (initChain st0) pre)) ∧
    (∀ pre b post, blocks = pre ++ b :: post →
      GoodBatch (run (blockStep h) (initChain st0) pre).comet (batch h (run (blockStep h) (initChain st0) pre) b)) := by
  obtain rfl := initGenesis_eq_ok hg
  have hs0 : Sound (initChain (genesisStore ∅ gs)).store := (sound_empty.genesisStore gs).validatorUpdates 0
  have hc0 : (roster (genesisStore ∅ gs)).count < 2 ^ 32 := by
    have hle : (roster (genesisStore ∅ gs)).count ≤ (roster (initChain (genesisStore ∅ gs)).store).count :=
      (Roster.count_le_acts _ _).trans_eq (congrArg Roster.count (roster_validatorUpdates _ 0).symm)
    exact Nat.lt_of_le_of_lt (hle.trans (count_le_blocks hs0 h blocks)) hc
  obtain ⟨hS, hfirst⟩ := initChain_settled hpos hc0
  have hpre (pre post : List Block) (he : blocks = pre ++ post) :
      Settled (run (blockStep h) (initChain (genesisStore ∅ gs)) pre) ∧
        (roster (run (blockStep h) (run (blockStep h) (initChain (genesisStore ∅ gs)) pre) post).store).count <
            2 ^ 32 := by
    subst he
    rw [run_append] at hc
    have hle := count_le_blocks (sound_blocks hs0 h pre) h post
    exact ⟨hS.run hacc.append.1 (Nat.lt_of_le_of_lt hle hc), hc⟩
  refine ⟨hfirst, ?_, ?_⟩
  · rintro pre ⟨post, he⟩
    exact (hpre pre post he.symm).1.view
  · intro pre b post he
    obtain ⟨hSp, hcp⟩ := hpre pre (b :: post) he
    have hle := count_le_blocks (sound_blockStep hSp.sound h b) h post
    rw [he] at hacc
    exact (hSp.block hacc.at_step (Nat.lt_of_le_of_lt hle hcp)).2

/-- A block that refreshes the only validator and admits a second one. -/
def joinBlock : Block :=
  ⟨⟨0, [⟨keyOf 0xa1, 10, dummyStwoProveBoundRoots 0 (keyOf 0xa1) 10 (lastObjectRoots (genesisStore ∅ soloGenesis))⟩,
    ⟨keyOf 0xb2, 5, stwoMagic ++ valsetInstanceBytes 0 1 5⟩]⟩, 0⟩

theorem comet_view_after_join :
    CometView (run (blockStep stwoHost) (initChain (genesisStore ∅ soloGenesis)) [joinBlock]) := by
  have hv : Accepted stwoHost (initChain (genesisStore ∅ soloGenesis)) joinBlock := by
    unfold Accepted
    decide +kernel
  have hc : (roster (run (blockStep stwoHost) (initChain (genesisStore ∅ soloGenesis)) [joinBlock]).store).count <
      2 ^ 32 := by
    decide +kernel
  have hg : initGenesis ∅ soloGenesis = .ok (genesisStore ∅ soloGenesis) := rfl
  have hacc : Along (blockStep stwoHost) (Accepted stwoHost) (initChain (genesisStore ∅ soloGenesis)) [joinBlock] :=
    Along.cons hv (Along.nil _)
  have hview := comet_view_over_runs stwoHost hg ⟨_, List.mem_cons_self, by decide, by decide⟩ hacc hc
  exact hview.2.1 _ (List.prefix_refl _)

/-- The only positive weight belongs to an empty key; a 32-byte key has weight 0. -/
def namelessGenesis : GenesisState := ⟨true, [⟨[], 1⟩, ⟨keyOf 0xb2, 0⟩], 0⟩

/-- As many subjects of weight 1 as asked for, each under its own 32-byte key. -/
def crowdedGenesis (n : Nat) : GenesisState := ⟨true, (List.range n).map (fun k => ⟨beBytes 32 k, 1⟩), 0⟩

private def crowd (n : Nat) : Roster Bytes :=
  (roster ∅).acts ((List.range n).map (fun k => .enroll (beBytes 32 k) 1))

private theorem crowded_mem {n : Nat} (hn : 0 < n) :
    ∃ s ∈ (crowdedGenesis n).genesisSubjects, s.weight > 0 ∧ s.pubKey ≠ [] :=
  ⟨⟨beBytes 32 0, 1⟩, List.mem_map.mpr ⟨0, List.mem_range.mpr hn, rfl⟩, by decide, by decide⟩

private theorem crowded_init {n : Nat} (hn : 0 < n) :
    initGenesis ∅ (crowdedGenesis n) = .ok (genesisStore ∅ (crowdedGenesis n)) := by
  have hv : (crowdedGenesis n).validate = .ok () := by
    refine failIf_eq_ok.mpr ?_
    simp only [crowdedGenesis, List.length_map, List.length_range]
    omega
  rw [initGenesis, hv]
  rfl

private theorem crowd_succ (n : Nat) : crowd (n + 1) = (crowd n).enroll (beBytes 32 n) 1 := by
  rw [crowd, List.range_succ, List.map_append, Roster.acts_append]
  rfl

private theorem seedAct_crowded (k : Nat) : seedAct ⟨beBytes 32 k, 1⟩ = some (.enroll (beBytes 32 k) 1) := by
  have hl : ¬ (beBytes 32 k).length = 0 := by simp
  have hw : (1 : Int64) > 0 := by decide
  rw [seedAct, if_neg hl, if_pos hw]

private theorem crowded_acts (ks : List Nat) :
    (ks.map (fun k => (⟨beBytes 32 k, 1⟩ : GenesisSubject))).filterMap seedAct =
      ks.map (fun k => .enroll (beBytes 32 k) 1) := by
  induction ks with
  | nil => rfl
  | cons k ks ih => rw [List.map_cons, List.filterMap_cons, seedAct_crowded, ih, List.map_cons]

private theorem roster_crowded (n : Nat) : roster (genesisStore ∅ (crowdedGenesis n)) = crowd n := by
  rw [roster_genesisStore, crowd, ← crowded_acts]
  rfl

private theorem crowd_fresh {n k : Nat} (hk : n ≤ k) (hmax : k < 256 ^ 32) : (crowd n).index (beBytes 32 k) = none := by
  refine Roster.index_acts_of_none (roster_empty_index _) ?_
  intro w hw
  obtain ⟨j, hj, he⟩ := List.mem_map.mp hw
  have hlt := List.mem_range.mp hj
  have := beBytes_inj (by omega) hmax (Act.enroll.inj he).1
  omega

private theorem crowd_next (n : Nat) (hn : n < 256 ^ 32) : (crowd n).next = UInt32.ofNat n := by
  induction n with
  | zero => decide +kernel
  | succ n ih =>
    have hnone := crowd_fresh (Nat.le_refl n) (by omega)
    rw [crowd_succ, Roster.enroll, UInt32.ofNat_add]
    simp only [hnone, Option.isSome_none, Bool.false_eq_true, if_false, ih (by omega)]
    rfl

/-- The second subject keeps number 1 while the counter wraps past it. -/
private theorem crowd_second {n : Nat} (hn : 2 ≤ n) :
    (crowd n).index (beBytes 32 1) = some 1 ∧ (crowd n).bit 1 = true ∧ (crowd n).eb 1 = some 1 := by
  induction n, hn using Nat.le_induction with
  | base => decide +kernel
  | succ n hn ih =>
    obtain ⟨hi, hb, he⟩ := ih
    have hact : crowd (n + 1) = (crowd n).act (.enroll (beBytes 32 n) 1) := crowd_succ n
    refine ⟨?_, ?_, ?_⟩
    · rw [hact]
      exact Roster.index_act_of_some hi _
    · rw [crowd_succ, Roster.bit_enroll (by decide), hb, ite_self]
    · rw [crowd_succ, Roster.eb_enroll (by decide), he]
      simp

private theorem bitRow_zero_subject {st : Store} {r : SubjectPower} (hr : bitRow st 0 = some r)
    (hl : r.subject.length = 32) : (roster st).index r.subject = some 0 := by
  unfold bitRow at hr
  split at hr
  · cases hr
  · obtain rfl := Option.some.inj hr
    by_cases hz : (subjectByIndex st 0).length = 0
    · simp only [hz, if_true] at hl
      exact absurd hl (by decide)
    · simp only [hz, if_false]
      exact index_subjectByIndex (fun hnil => hz (by rw [hnil]; rfl))

section Wrapped
variable {n : Nat} (hn : 2 ≤ n) (hmax : n < 256 ^ 32) (hwrap : UInt32.ofNat n = 1)
include hn hmax hwrap

omit hn in
private theorem crowded_next : nextDepositIndex (genesisStore ∅ (crowdedGenesis n)) = 1 := by
  change (roster (genesisStore ∅ (crowdedGenesis n))).next = 1
  rw [roster_crowded, crowd_next n hmax, hwrap]

/-- The counter says one number is taken, so only the subject at 0 is sent. -/
private theorem crowded_not_sent (w : Int64) :
    ⟨beBytes 32 1, w⟩ ∉ (validatorUpdates (genesisStore ∅ (crowdedGenesis n)) 0).2 := by
  have hnext := crowded_next hmax hwrap
  have hsecond := crowd_second hn
  rw [← roster_crowded] at hsecond
  have hlast := lastPower_genesis (crowdedGenesis n)
  generalize genesisStore ∅ (crowdedGenesis n) = st at hnext hsecond hlast
  have hrows : debugSubjectsFromBits st = (bitRow st 0).toList := by
    rw [debugSubjectsFromBits, hnext, show indices 1 = [0] from rfl, List.filterMap_cons]
    cases bitRow st 0 <;> rfl
  have hn : ((debugSubjectsFromBits st).map (·.subject)).Nodup := by
    rw [hrows]
    cases bitRow st 0 <;> simp
  have hbits : usingBits st = true := by simp [usingBits, hnext]
  rw [validatorUpdates, if_pos hbits, mem_sendUpdates hn, hlast]
  rintro (⟨r, hr, hsub, hp⟩ | ⟨_, _, hne, _⟩)
  · rw [hrows, Option.mem_toList] at hr
    have hi := bitRow_zero_subject hr (rowPower_length hp)
    rw [hsub, hsecond.1] at hi
    exact absurd hi (by decide)
  · exact hne rfl

private theorem crowded_not_view : ¬ CometView (initChain (genesisStore ∅ (crowdedGenesis n))) := by
  intro hview
  have hnone : (initChain (genesisStore ∅ (crowdedGenesis n))).comet (beBytes 32 1) = none := by
    refine foldUpdates_of_not_mem ?_ _
    intro hmem
    obtain ⟨u, hu, hk⟩ := List.mem_map.mp hmem
    refine crowded_not_sent hn hmax hwrap u.power ?_
    rw [← hk]
    exact hu
  obtain ⟨hi, hb, he⟩ := crowd_second hn
  rw [← roster_crowded] at hi hb he
  have hroster : roster (initChain (genesisStore ∅ (crowdedGenesis n))).store =
      roster (genesisStore ∅ (crowdedGenesis n)) := by
    have hbits : usingBits (genesisStore ∅ (crowdedGenesis n)) = true := by
      simp [usingBits, crowded_next hmax hwrap]
    refine (roster_validatorUpdates _ 0).trans ?_
    rw [if_pos hbits, Roster.acts_nil]
  rw [← hroster] at hi hb he
  refine (hview.keys (beBytes 32 1)).mpr ⟨by simp, 1, hi, hb, ?_⟩ hnone
  rw [ebOf_eq, he]
  decide

end Wrapped

/-- Two runs the view does not survive: a removal of a key Comet never had, and a member with
a balance that Comet is never told about once the 32-bit counter has wrapped. -/
theorem comet_view_needs_named_subject_and_counter :
    ((∃ s ∈ namelessGenesis.genesisSubjects, s.weight > 0) ∧
      initGenesis ∅ namelessGenesis = .ok (genesisStore ∅ namelessGenesis) ∧
      ¬ GoodBatch (fun _ => none) (validatorUpdates (genesisStore ∅ namelessGenesis) 0).2) ∧
    ((∃ s ∈ (crowdedGenesis (2 ^ 32 + 1)).genesisSubjects, s.weight > 0 ∧ s.pubKey ≠ []) ∧
      initGenesis ∅ (crowdedGenesis (2 ^ 32 + 1)) = .ok (genesisStore ∅ (crowdedGenesis (2 ^ 32 + 1))) ∧
      ¬ CometView (initChain (genesisStore ∅ (crowdedGenesis (2 ^ 32 + 1))))) := by
  refine ⟨⟨⟨_, List.mem_cons_self, by decide⟩, rfl, ?_⟩, ?_, ?_, ?_⟩
  · have hups : (validatorUpdates (genesisStore ∅ namelessGenesis) 0).2 = [⟨keyOf 0xb2, 0⟩] := by decide +kernel
    rw [hups]
    rintro ⟨_, hgood⟩
    exact hgood _ List.mem_cons_self rfl rfl
  · exact crowded_mem (by omega)
  · exact crowded_init (by omega)
  · exact crowded_not_view (by omega) (by omega) (by decide)

end Terpz.Leanval.Keeper
