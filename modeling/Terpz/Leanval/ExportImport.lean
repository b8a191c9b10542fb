import Terpz.Leanval.Keeper.Export

/-! A node that starts from the export of another. The rows come back in order with their balances; the
powers are sent anew, in full, so what a first admission was held down to is lost. -/
namespace Terpz.Leanval
open Lib

namespace Keeper
open Lib.PrefixStore

private theorem filterMap_range {α : Type} {l : List α} {f : Nat → Option α} (hf : ∀ k, k < l.length → f k = l[k]?) :
    (List.range l.length).filterMap f = l := by
  have htake : ∀ n, n ≤ l.length → (List.range n).filterMap f = l.take n := by
    intro n hn
    induction n with
    | zero => rfl
    | succ n ih =>
      rw [List.range_succ, List.filterMap_append, ih (by omega), List.take_add_one, List.filterMap_cons, hf n hn]
      cases l[n]? <;> rfl
  rw [htake l.length (Nat.le_refl _), List.take_length]

/-- A row as the bits give it: the weight is a balance byte and only a positive one is a proof. -/
def Balanced (r : SubjectPower) : Prop :=
  r.subject ≠ [] ∧ ∃ b : UInt8, r.weight = b.toUInt64.toInt64 ∧ r.hasProof = decide (b > 0)

private theorem byte_weight (b : UInt8) : (b.toUInt64.toInt64 > 0 ↔ b > 0) ∧
    (b > 0 → ebFromWeight b.toUInt64.toInt64 = b) := by
  have h : ∀ v : BitVec 8, ((UInt8.ofBitVec v).toUInt64.toInt64 > 0 ↔ UInt8.ofBitVec v > 0) ∧
      (UInt8.ofBitVec v > 0 → ebFromWeight (UInt8.ofBitVec v).toUInt64.toInt64 = UInt8.ofBitVec v) := by
    decide +kernel
  exact h b.toBitVec

theorem Balanced.pos_iff {r : SubjectPower} (h : Balanced r) : r.weight > 0 ↔ r.hasProof = true := by
  obtain ⟨-, b, hw, hp⟩ := h
  rw [hw, hp, decide_eq_true_eq]
  exact (byte_weight b).1

theorem Balanced.ebFromWeight {r : SubjectPower} (h : Balanced r) (hp : r.hasProof = true) :
    (ebFromWeight r.weight).toUInt64.toInt64 = r.weight ∧ ebFromWeight r.weight > 0 := by
  obtain ⟨-, b, hw, hb⟩ := h
  rw [hb, decide_eq_true_eq] at hp
  rw [hw, (byte_weight b).2 hp]
  exact ⟨rfl, hp⟩

theorem balanced_rows {st : Store} (hs : Sound st) (hwf : (roster st).WF) {r : SubjectPower}
    (hr : r ∈ debugSubjectsFromBits st) : Balanced r := by
  obtain ⟨s, i, hi, -, rfl⟩ := (mem_debugSubjectsFromBits hs hwf).mp hr
  refine ⟨?_, ebOf st i, rfl, rfl⟩
  rintro rfl
  rw [hs.subject_ne] at hi
  cases hi

/-- The genesis state that lists the rows. -/
def listed (owns : Bool) (rows : List SubjectPower) (period : Int64) : GenesisState :=
  ⟨owns, rows.map (fun s => ⟨s.subject, s.weight⟩), period⟩

section Import
variable {rows : List SubjectPower} (hrows : ∀ r ∈ rows, Balanced r)
include hrows

private theorem seedActs_listed :
    (rows.map (fun s : SubjectPower => (⟨s.subject, s.weight⟩ : GenesisSubject))).filterMap seedAct =
    Roster.enrolments ((rows.filter (·.hasProof)).map (fun r => (r.subject, r.weight))) := by
  induction rows with
  | nil => rfl
  | cons r rows ih =>
    have hr := hrows r List.mem_cons_self
    have hne : ¬ r.subject.length = 0 := fun hl => hr.1 (List.length_eq_zero_iff.mp hl)
    rw [List.map_cons, List.filterMap_cons, ih (fun r' hr' => hrows r' (List.mem_cons_of_mem _ hr')), seedAct,
      if_neg hne, List.filter_cons]
    by_cases hp : r.hasProof = true
    · rw [if_pos (hr.pos_iff.mpr hp), if_pos hp]
      rfl
    · rw [if_neg (fun hw => hp (hr.pos_iff.mp hw)), if_neg hp]

variable (hlen : rows.length < 2 ^ 32) (owns : Bool) (period : Int64)
include hlen

private theorem listed_count : (roster (genesisStore ∅ (listed owns rows period))).count < 2 ^ 32 := by
  rw [roster_genesisStore, listed, seedActs_listed hrows]
  refine Nat.lt_of_le_of_lt (Roster.count_acts_le _ _) ?_
  have hle := List.length_filter_le (fun r : SubjectPower => r.hasProof) rows
  have hzero : (roster ∅).count = 0 := rfl
  rw [hzero, Roster.enrolments, List.length_map, List.length_map]
  omega

variable (hn : (rows.map (·.subject)).Nodup)
include hn

/-- The member row of an imported row is the row itself. -/
private theorem bitRow_listed {k : Nat} {r : SubjectPower} (hk : (rows.filter (·.hasProof))[k]? = some r) :
    bitRow (genesisStore ∅ (listed owns rows period)) (UInt32.ofNat k) = some r := by
  have hs := sound_empty.genesisStore (listed owns rows period)
  have hroster := roster_genesisStore ∅ (listed owns rows period)
  rw [listed, seedActs_listed hrows] at hroster
  have hle := List.length_filter_le (fun r : SubjectPower => r.hasProof) rows
  obtain ⟨hmem, hp⟩ := List.mem_filter.mp (List.mem_of_getElem? hk)
  have horder := Roster.enrolments_in_order roster_empty_wf roster_empty_index rfl
    ((rows.filter (·.hasProof)).map (fun r => (r.subject, r.weight))) (k := k) (e := (r.subject, r.weight))
    ?_ ?_ ?_ ?_
  · rw [← hroster] at horder
    obtain ⟨hi, hb, he⟩ := horder
    obtain ⟨hweight, hpos⟩ := (hrows r hmem).ebFromWeight hp
    have heb : ebOf (genesisStore ∅ (listed owns rows period)) (UInt32.ofNat k) = ebFromWeight r.weight := by
      rw [ebOf_eq, listed, he]
      rfl
    rw [bitRow_eq hs (hs.wf (listed_count hrows hlen owns period)) hi hb, memberRow, heb, hweight,
      decide_eq_true hpos, ← hp]
  · rw [List.map_map]
    exact hn.sublist (List.filter_sublist.map _)
  · intro e he
    obtain ⟨r', hr', rfl⟩ := List.mem_map.mp he
    obtain ⟨hmem', hp'⟩ := List.mem_filter.mp hr'
    exact (hrows r' hmem').pos_iff.mpr hp'
  · rw [List.length_map]
    omega
  · rw [List.getElem?_map, hk]
    rfl

/-- An import has the rows with a balance, in the order of the file. -/
theorem debugSubjectsFromBits_listed :
    debugSubjectsFromBits (genesisStore ∅ (listed owns rows period)) = rows.filter (·.hasProof) := by
  have hwf := (sound_empty.genesisStore (listed owns rows period)).wf (listed_count hrows hlen owns period)
  have hnext : (nextDepositIndex (genesisStore ∅ (listed owns rows period))).toNat =
      (rows.filter (·.hasProof)).length := by
    refine hwf.next_eq.trans ?_
    rw [roster_genesisStore, listed, seedActs_listed hrows,
      Roster.count_enrolments _ (fun e _ => roster_empty_index e.1), List.length_map]
    · exact Nat.zero_add _
    · rw [List.map_map]
      exact hn.sublist (List.filter_sublist.map _)
  rw [debugSubjectsFromBits, indices, hnext, List.filterMap_map]
  apply filterMap_range
  intro k hk
  rw [List.getElem?_eq_getElem hk]
  exact bitRow_listed hrows hlen owns period hn (List.getElem?_eq_getElem hk)

end Import

/-- A chain on which no subject was ever numbered: no power was sent and Comet has no validator. -/
structure Blank (c : Chain) : Prop where
  sound : Sound c.store
  unnumbered : ∀ s, (roster c.store).index s = none
  powerless : ∀ s, lastPower c.store s = 0
  unseen : ∀ s, c.comet s = none

theorem Mirrors.validatorUpdates {vs : ValidatorSet} {st : Store} (hm : Mirrors vs st) (hs : Sound st)
    (hwf : (roster st).WF) (hlen : ∀ s, lastPower st s ≠ 0 → s.length = 32) (period : UInt64) :
    Mirrors (foldUpdates vs (Keeper.validatorUpdates st period).2) (Keeper.validatorUpdates st period).1 := by
  unfold Keeper.validatorUpdates
  split
  · exact hm.sendUpdates true (debugSubjectsFromBits_nodup hs hwf) hlen
  · have hlast := lastPower_eq_of_agree (agree_bondedSetOrCarry (b := lastUpdatesPrefix) (by decide) st period)
    have hcarried : Mirrors vs (bondedSetOrCarry st period).1 := fun s => by rw [hm s, hlast]
    have hn : ((bondedSetOrCarry st period).2.map (·.subject)).Nodup := by
      rw [bondedSetOrCarry_rows]
      exact bondedSet_nodup _ _
    refine hcarried.sendUpdates false hn ?_
    intro s hne
    rw [← hlast] at hne
    exact hlen s hne

theorem Blank.mirrors {c : Chain} (h : Blank c) : Mirrors c.comet c.store := by
  intro s
  rw [h.powerless, if_pos rfl, h.unseen]

theorem Blank.endBlock {c : Chain} (h : Blank c) (hc : (roster c.store).count < 2 ^ 32) (period : UInt64) :
    Blank (c.endBlock period) := by
  have hwf := h.sound.wf hc
  have hsent : PowersSent c.store := fun s hne => absurd (h.powerless s) hne
  have hnone (s : Bytes) : (roster (c.endBlock period).store).index s = none := by
    rw [Chain.endBlock, roster_validatorUpdates]
    refine Roster.index_acts_of_none (h.unnumbered s) ?_
    intro w hmem
    split at hmem
    · cases hmem
    · have hsome := (h.sound.carryActs hmem).2.2
      rw [h.unnumbered s] at hsome
      cases hsome
  have hzero (s : Bytes) : lastPower (c.endBlock period).store s = 0 := by
    by_contra hne
    obtain ⟨-, -, -, i, -, hi, -⟩ := hsent.validatorUpdates h.sound hwf period s hne
    rw [show (roster (validatorUpdates c.store period).1).index s = none from hnone s] at hi
    cases hi
  refine ⟨h.sound.validatorUpdates period, hnone, hzero, fun s => ?_⟩
  have hm := h.mirrors.validatorUpdates h.sound hwf (fun s hne => absurd (h.powerless s) hne) period s
  rw [show lastPower (validatorUpdates c.store period).1 s = 0 from hzero s, if_pos rfl] at hm
  exact hm

/-- A chain where Comet has nobody yet settles, or stays blank. -/
private theorem endBlock_settled_or_blank {c : Chain} (hs : Sound c.store) (hzero : ∀ s, lastPower c.store s = 0)
    (hnone : ∀ s, c.comet s = none) (hc : (roster c.store).count < 2 ^ 32) (period : UInt64) :
    Settled (c.endBlock period) ∨ Blank (c.endBlock period) := by
  by_cases hnum : ∃ s i, (roster c.store).index s = some i
  · have hm : Mirrors c.comet c.store := fun s => by rw [hzero, if_pos rfl, hnone]
    exact .inl (endBlock_settled hs (hs.wf hc) (fun s hne => absurd (hzero s) hne)
      (fun s i hne => absurd (hzero s) hne) hm hnum period).1
  · have hnot (s : Bytes) : (roster c.store).index s = none := by
      by_contra hne
      obtain ⟨i, hi⟩ := Option.ne_none_iff_exists'.mp hne
      exact hnum ⟨s, i, hi⟩
    exact .inr (Blank.endBlock ⟨hs, hnot, hzero, hnone⟩ hc period)

theorem initChain_settled_or_blank (gs : GenesisState) (hc : (roster (genesisStore ∅ gs)).count < 2 ^ 32) :
    Settled (initChain (genesisStore ∅ gs)) ∨ Blank (initChain (genesisStore ∅ gs)) :=
  endBlock_settled_or_blank (c := ⟨genesisStore ∅ gs, fun _ => none⟩) (sound_empty.genesisStore gs)
    (lastPower_genesis gs) (fun _ => rfl) hc 0

theorem blockStep_settled_or_blank {h : Host} {c : Chain} {b : Block} (hS : Settled c ∨ Blank c) (hv : Accepted h c b)
    (hc : (roster (blockStep h c b).store).count < 2 ^ 32) : Settled (blockStep h c b) ∨ Blank (blockStep h c b) := by
  rcases hS with hS | hB
  · exact .inl (hS.block hv hc).1
  · have hlast := lastPower_eq_of_agree (agree_applyLNPR (b := lastUpdatesPrefix) (by decide) h c.store b.blob)
    have hcd := Nat.lt_of_le_of_lt (count_le_blockStep hB.sound h b).2 hc
    refine endBlock_settled_or_blank (c := deliver h c b) (hB.sound.applyLNPR h b.blob) ?_ hB.unseen hcd b.period
    exact fun s => (hlast s).symm.trans (hB.powerless s)

theorem run_settled_or_blank {h : Host} {c : Chain} (hS : Settled c ∨ Blank c) (hs : Sound c.store)
    {blocks : List Block}
    (hacc : Along (blockStep h) (Accepted h) c blocks)
    (hc : (roster (run (blockStep h) c blocks).store).count < 2 ^ 32) :
    Settled (run (blockStep h) c blocks) ∨ Blank (run (blockStep h) c blocks) := by
  induction blocks generalizing c with
  | nil => exact hS
  | cons b blocks ih =>
    have hle := count_le_blocks (sound_blockStep hs h b) h blocks
    exact ih (blockStep_settled_or_blank hS hacc.1 (Nat.lt_of_le_of_lt hle hc)) (sound_blockStep hs h b) hacc.2 hc

/-- The chain read row by row: who has a power, and that Comet has it. -/
structure Kept (c : Chain) : Prop where
  sound : Sound c.store
  wf : (roster c.store).WF
  mirrors : Mirrors c.comet c.store
  keys : ∀ s, lastPower c.store s ≠ 0 ↔
    s.length = 32 ∧ ∃ r ∈ debugSubjectsFromBits c.store, r.subject = s ∧ r.hasProof = true

theorem kept_of_settled_or_blank {c : Chain} (h : Settled c ∨ Blank c) (hc : (roster c.store).count < 2 ^ 32) :
    Kept c := by
  rcases h with h | h
  · have hwf := h.sound.wf hc
    refine ⟨h.sound, hwf, h.view.powers, fun s => ?_⟩
    rw [← Mirrors.ne_none_iff h.view.powers, h.view.keys]
    refine and_congr_right (fun _ => ?_)
    constructor
    · rintro ⟨i, hi, hb, hpos⟩
      exact ⟨_, (mem_debugSubjectsFromBits h.sound hwf).mpr ⟨s, i, hi, hb, rfl⟩, rfl, decide_eq_true hpos⟩
    · rintro ⟨r, hr, rfl, hp⟩
      obtain ⟨s, i, hi, hb, rfl⟩ := (mem_debugSubjectsFromBits h.sound hwf).mp hr
      exact ⟨i, hi, hb, of_decide_eq_true hp⟩
  · have hwf := h.sound.wf hc
    refine ⟨h.sound, hwf, h.mirrors, fun s => ?_⟩
    refine iff_of_false (fun hne => hne (h.powerless s)) ?_
    rintro ⟨-, r, hr, -⟩
    obtain ⟨s, i, hi, -⟩ := (mem_debugSubjectsFromBits h.sound hwf).mp hr
    rw [h.unnumbered s] at hi
    cases hi

/-- The first updates of a genesis send every balance in full. -/
theorem initChain_power (gs : GenesisState) (hc : (roster (genesisStore ∅ gs)).count < 2 ^ 32) {r : SubjectPower}
    (hr : r ∈ debugSubjectsFromBits (genesisStore ∅ gs)) (hp : r.hasProof = true) (hl : r.subject.length = 32) :
    lastPower (initChain (genesisStore ∅ gs)).store r.subject = r.weight := by
  have hs := sound_empty.genesisStore gs
  have hwf := hs.wf hc
  obtain ⟨s, i, hi, hb, rfl⟩ := (mem_debugSubjectsFromBits hs hwf).mp hr
  have hexisting : existingTotal (genesisStore ∅ gs) (debugSubjectsFromBits (genesisStore ∅ gs)) = 0 := by
    refine foldl_frame _ id (fun t r => ?_) 0 _
    rw [lastPower_genesis]
    rfl
  have hne : ebOf (genesisStore ∅ gs) i ≠ 0 := UInt8.pos_iff_ne_zero.mp (of_decide_eq_true hp)
  have hpower := member_power hs hwf hi hb hl
  rw [if_neg hne, if_pos (lastPower_genesis gs s), hexisting, if_neg (by decide)] at hpower
  change lastPower (validatorUpdates (genesisStore ∅ gs) 0).1 s = _
  rw [validatorUpdates, if_pos (usingBits_of_index hwf hi), ← Int64.toInt_inj, hpower, memberRow_weight]

private theorem initChain_membership (st : Store) {k : Bytes} (hk : membershipTable k = true) :
    (initChain st).store[k]? = st[k]? := by
  have hsend (bits : Bool) (rows : List SubjectPower) : (sendUpdates st bits rows).1[k]? = st[k]? :=
    sendUpdates_store (P := fun st' => st'[k]? = st[k]?) bits rows rfl
      (fun _ _ _ h => (getElem?_set_other rfl hk).trans h)
  change (validatorUpdates st 0).1[k]? = st[k]?
  unfold validatorUpdates
  split
  · exact hsend _ _
  · have hcarry : bondedSetOrCarry st 0 = (st, bondedSet st 0) := by simp [bondedSetOrCarry]
    rw [hcarry]
    exact hsend _ _

theorem Mirrors.eq_iff {vs vs' : ValidatorSet} {st st' : Store} (h : Mirrors vs st) (h' : Mirrors vs' st') :
    vs = vs' ↔ ∀ s, lastPower st s = lastPower st' s := by
  constructor
  · rintro rfl s
    have heq := (h s).symm.trans (h' s)
    split at heq
    · next hz =>
      split at heq
      · next hz' => rw [hz, hz']
      · cases heq
    · split at heq
      · cases heq
      · exact Option.some.inj heq
  · intro heq
    funext s
    rw [h s, h' s, heq s]

section Reimport
variable {c : Chain} (hc : Kept c) (owns : Bool) (period : Int64)
include hc

/-- The chain that starts from the rows of another. -/
private theorem kept_reimport :
    Kept (initChain (genesisStore ∅ (listed owns (debugSubjectsFromBits c.store) period))) ∧
    debugSubjectsFromBits (initChain (genesisStore ∅ (listed owns (debugSubjectsFromBits c.store) period))).store =
      (debugSubjectsFromBits c.store).filter (·.hasProof) ∧
    ∀ r ∈ debugSubjectsFromBits c.store, r.hasProof = true → r.subject.length = 32 →
      lastPower (initChain (genesisStore ∅ (listed owns (debugSubjectsFromBits c.store) period))).store r.subject =
        r.weight := by
  have hrows (r : SubjectPower) (hr : r ∈ debugSubjectsFromBits c.store) : Balanced r := balanced_rows hc.sound hc.wf hr
  have hlen : (debugSubjectsFromBits c.store).length < 2 ^ 32 := by
    have hle := List.length_filterMap_le (bitRow c.store) (indices (nextDepositIndex c.store))
    rw [indices, List.length_map, List.length_range] at hle
    exact Nat.lt_of_le_of_lt hle (UInt32.toNat_lt _)
  have hn := debugSubjectsFromBits_nodup hc.sound hc.wf
  have hcount := listed_count hrows hlen owns period
  have himport := debugSubjectsFromBits_listed hrows hlen owns period hn
  refine ⟨?_, ?_, ?_⟩
  · refine kept_of_settled_or_blank (initChain_settled_or_blank _ hcount) ?_
    rw [roster_congr (fun k hk => initChain_membership _ hk)]
    exact hcount
  · rw [debugSubjectsFromBits_congr (fun k hk => initChain_membership _ hk), himport]
  · intro r hr hp hl
    refine initChain_power _ hcount ?_ hp hl
    rw [himport]
    exact List.mem_filter.mpr ⟨hr, hp⟩

/-- Comet builds the same set again exactly if every member's power is its balance. -/
theorem reimport_comet_iff :
    (initChain (genesisStore ∅ (listed owns (debugSubjectsFromBits c.store) period))).comet = c.comet ↔
      ∀ r ∈ debugSubjectsFromBits c.store, r.hasProof = true → r.subject.length = 32 →
        lastPower c.store r.subject = r.weight := by
  obtain ⟨hk, hrows, hpower⟩ := kept_reimport hc owns period
  generalize initChain (genesisStore ∅ (listed owns (debugSubjectsFromBits c.store) period)) = c' at hk hrows hpower
  have hsame (s : Bytes) : lastPower c'.store s ≠ 0 ↔ lastPower c.store s ≠ 0 := by
    rw [hk.keys, hc.keys, hrows]
    refine and_congr_right (fun _ => exists_congr (fun r => ?_))
    rw [List.mem_filter]
    exact ⟨fun h => ⟨h.1.1, h.2⟩, fun h => ⟨⟨h.1, h.2.2⟩, h.2⟩⟩
  rw [hk.mirrors.eq_iff hc.mirrors]
  constructor
  · intro h r hr hp hl
    rw [← h, hpower r hr hp hl]
  · intro h s
    by_cases hz : lastPower c.store s = 0
    · rw [hz]
      by_contra hne
      exact (hsame s).mp hne hz
    · obtain ⟨hl, r, hr, rfl, hp⟩ := (hc.keys s).mp hz
      rw [hpower r hr hp hl, h r hr hp hl]

end Reimport

/-- What a second node shares with the first: Comet's set, the rows with their balances, the flag, the period
length and the verifier. -/
structure Node.Same (n n' : Node) : Prop where
  comet : n'.chain.comet = n.chain.comet
  rows : debugSubjectsFromBits n'.chain.store = debugSubjectsFromBits n.chain.store
  owns : ownsValset n'.chain.store = ownsValset n.chain.store
  period : n'.blocksPerPeriodLive = n.blocksPerPeriodLive
  stored : get n'.chain.store periodParamKey = get n.chain.store periodParamKey
  verifier : n'.verifierAcc = n.verifierAcc
  code : n'.leanZkId = n.leanZkId

/-- The export of the node starts a node that shares everything. -/
def Node.RoundTrips (n : Node) : Prop := ∃ n', start n.exportGenesis = .ok n' ∧ Same n n'

/-- The file the chain came from binds no verifier, an owned validator set has a member, no member has an
empty balance, and no 32-byte member was held below its balance. -/
structure Exportable (file : GenesisFile) (st : Store) : Prop where
  unbound : file.verifierAddr = []
  inhabited : file.ownsValset = true → ∃ s i, depositIndexOf st s = some i ∧ bitIsSet st i = true
  balanced : ∀ s i, depositIndexOf st s = some i → bitIsSet st i = true → ebOf st i ≠ 0
  uncapped : ∀ s i, s.length = 32 → depositIndexOf st s = some i → bitIsSet st i = true →
    (lastPower st s).toInt = (ebOf st i).toNat

/-- The condition read off the rows of the bits. -/
theorem exportable_iff_rows {st : Store} (hs : Sound st) (hwf : (roster st).WF) (file : GenesisFile) :
    Exportable file st ↔ file.verifierAddr = [] ∧ (file.ownsValset = true → debugSubjectsFromBits st ≠ []) ∧
      ∀ r ∈ debugSubjectsFromBits st, r.hasProof = true ∧
        (r.subject.length = 32 → lastPower st r.subject = r.weight) := by
  have hmem := @mem_debugSubjectsFromBits st hs hwf
  constructor
  · intro h
    refine ⟨h.unbound, fun howns => ?_, fun r hr => ?_⟩
    · obtain ⟨s, i, hi, hb⟩ := h.inhabited howns
      exact List.ne_nil_of_mem (hmem.mpr ⟨s, i, hi, hb, rfl⟩)
    · obtain ⟨s, i, hi, hb, rfl⟩ := hmem.mp hr
      refine ⟨decide_eq_true (UInt8.pos_iff_ne_zero.mpr (h.balanced s i hi hb)), fun hl => ?_⟩
      rw [← Int64.toInt_inj, memberRow_weight]
      exact h.uncapped s i hl hi hb
  · rintro ⟨hunbound, hne, hrows⟩
    refine ⟨hunbound, fun howns => ?_, fun s i hi hb => ?_, fun s i hl hi hb => ?_⟩
    · obtain ⟨r, hr⟩ := List.exists_mem_of_ne_nil _ (hne howns)
      obtain ⟨s, i, hi, hb, -⟩ := hmem.mp hr
      exact ⟨s, i, hi, hb⟩
    · have hp := (hrows _ (hmem.mpr ⟨s, i, hi, hb, rfl⟩)).1
      exact UInt8.pos_iff_ne_zero.mp (of_decide_eq_true hp)
    · have hpower := (hrows _ (hmem.mpr ⟨s, i, hi, hb, rfl⟩)).2 hl
      rw [← Int64.toInt_inj, memberRow_weight] at hpower
      exact hpower

/-- A file that lists no subject is refused just when it owns the validator set. -/
private theorem validate_listed (owns : Bool) (rows : List SubjectPower) (period : Int64) :
    (listed owns rows period).validate = .ok () ↔ (owns = true → rows ≠ []) := by
  rw [GenesisState.validate, failIf_eq_ok, listed, List.length_map, List.length_eq_zero_iff, not_and]

/-- A node kept by its blocks survives an export and import exactly if its state is exportable. -/
theorem Node.roundTrips_iff {file : GenesisFile} {n : Node} (hn : Configured file n) (hk : Kept n.chain) :
    n.RoundTrips ↔ Exportable file n.chain.store := by
  have hlive : n.blocksPerPeriodLive = if file.blocksPerPeriod ≤ 0 then blocksPerPeriod else file.blocksPerPeriod := by
    rw [blocksPerPeriodLive, hn.live, if_neg (periodLength_pos _)]
  have hfile : n.exportGenesis.toGenesisState =
      listed file.ownsValset (debugSubjectsFromBits n.chain.store) n.blocksPerPeriodLive := by
    rw [← hn.owns]
    rfl
  obtain ⟨-, hrows, -⟩ := kept_reimport hk file.ownsValset n.blocksPerPeriodLive
  have hcomet := reimport_comet_iff hk file.ownsValset n.blocksPerPeriodLive
  rw [exportable_iff_rows hk.sound hk.wf]
  constructor
  · rintro ⟨n', hstart, hsame⟩
    obtain ⟨hvalid, hchain, hconf⟩ := start_eq_ok hstart
    rw [hfile] at hvalid hchain
    have hproof : ∀ r ∈ debugSubjectsFromBits n.chain.store, r.hasProof = true := by
      rw [← List.filter_eq_self, ← hrows, ← hchain]
      exact hsame.rows
    refine ⟨?_, (validate_listed _ _ _).mp hvalid, fun r hr => ⟨hproof r hr, ?_⟩⟩
    · rw [← hn.address, ← hsame.verifier]
      exact hconf.address
    · refine hcomet.mp ?_ r hr (hproof r hr)
      rw [← hchain]
      exact hsame.comet
  · rintro ⟨hunbound, hne, hmembers⟩
    have hvalid : n.exportGenesis.toGenesisState.validate = .ok () := by
      rw [hfile, validate_listed]
      exact hne
    obtain ⟨n', hstart⟩ := start_of_validate hvalid
    obtain ⟨-, hchain, hconf⟩ := start_eq_ok hstart
    rw [hfile] at hchain
    have hperiod : (if n.exportGenesis.blocksPerPeriod ≤ 0 then blocksPerPeriod else n.exportGenesis.blocksPerPeriod) =
        if file.blocksPerPeriod ≤ 0 then blocksPerPeriod else file.blocksPerPeriod := by
      change (if n.blocksPerPeriodLive ≤ 0 then blocksPerPeriod else n.blocksPerPeriodLive) = _
      rw [hlive, if_neg (periodLength_pos _)]
    refine ⟨n', hstart, ?_, ?_, ?_, ?_, ?_, ?_, ?_⟩
    · rw [hchain]
      exact hcomet.mpr (fun r hr _ => (hmembers r hr).2)
    · rw [hchain, hrows, List.filter_eq_self]
      exact fun r hr => (hmembers r hr).1
    · exact hconf.owns
    · rw [hlive, blocksPerPeriodLive, hconf.live, hperiod, if_neg (periodLength_pos _)]
    · rw [hconf.stored, hperiod, hn.stored]
    · rw [hconf.address, hn.address, hunbound]
      rfl
    · rw [hconf.code, hn.code, hunbound]
      rfl

theorem Node.run_chain {file : GenesisFile} {n : Node} (hn : Configured file n) (h : Host) (blocks : List Block) :
    Configured file (run (block h) n blocks) ∧
      (run (block h) n blocks).chain = run (blockStep h) n.chain blocks := by
  induction blocks generalizing n with
  | nil => exact ⟨hn, rfl⟩
  | cons b blocks ih => exact ih (hn.block h b)

/-- In every run of accepted blocks that gives out fewer than `2 ^ 32` numbers, the state reached survives an
export and import exactly if it is exportable. -/
theorem export_import_iff (h : Host) {file : GenesisFile} {n : Node} (hstart : Node.start file = .ok n)
    {blocks : List Block} (hacc : Along (blockStep h) (Accepted h) n.chain blocks)
    (hc : (roster (run (Node.block h) n blocks).chain.store).count < 2 ^ 32) :
    (run (Node.block h) n blocks).RoundTrips ↔ Exportable file (run (Node.block h) n blocks).chain.store := by
  obtain ⟨-, hchain, hconf⟩ := Node.start_eq_ok hstart
  obtain ⟨hconf', hrun⟩ := Node.run_chain hconf h blocks
  have hs0 := sound_empty.genesisStore file.toGenesisState
  have hs : Sound n.chain.store := by
    rw [hchain]
    exact hs0.validatorUpdates 0
  rw [hrun] at hc
  have hc0 : (roster (genesisStore ∅ file.toGenesisState)).count < 2 ^ 32 := by
    have hle := count_le_blocks hs h blocks
    have hsame : roster n.chain.store = roster (genesisStore ∅ file.toGenesisState) := by
      rw [hchain]
      exact roster_congr (fun k hk => initChain_membership _ hk)
    rw [hsame] at hle
    exact Nat.lt_of_le_of_lt hle hc
  have hS : Settled n.chain ∨ Blank n.chain := by
    rw [hchain]
    exact initChain_settled_or_blank _ hc0
  have hkept := kept_of_settled_or_blank (run_settled_or_blank hS hs hacc hc) hc
  rw [← hrun] at hkept
  exact Node.roundTrips_iff hconf' hkept

/-- A file for the chain of one validator, and the verifier it binds. -/
def soloFile (verifierAddr : Bytes) : GenesisFile := ⟨soloGenesis, verifierAddr, 2⟩

/-- The node of the file at its first block. -/
def soloNode (verifierAddr : Bytes) : Node :=
  Node.bindVerifier ⟨initChain (genesisStore ∅ soloGenesis), [], 0, 600⟩ (soloFile verifierAddr)

/-- A block that refreshes the only validator and admits a second one with the given balance. -/
def admitBlock (eb : UInt8) : Block :=
  ⟨⟨0, [⟨keyOf 0xa1, 10, dummyStwoProveBoundRoots 0 (keyOf 0xa1) 10 (lastObjectRoots (genesisStore ∅ soloGenesis))⟩,
    ⟨keyOf 0xb2, eb.toUInt64.toInt64, stwoMagic ++ valsetInstanceBytes 0 1 eb⟩]⟩, 0⟩

/-- A second validator of weight 1 has its whole balance as power and comes back with it. -/
theorem unit_join_survives_export :
    (run (Node.block stwoHost) (soloNode []) [admitBlock 1]).chain.comet (keyOf 0xb2) = some 1 ∧
    (run (Node.block stwoHost) (soloNode []) [admitBlock 1]).RoundTrips := by
  have hv : Accepted stwoHost (soloNode []).chain (admitBlock 1) := by
    unfold Accepted
    decide +kernel
  have hc : (roster (run (Node.block stwoHost) (soloNode []) [admitBlock 1]).chain.store).count < 2 ^ 32 := by
    decide +kernel
  have hs : Sound (run (Node.block stwoHost) (soloNode []) [admitBlock 1]).chain.store :=
    sound_blockStep ((sound_empty.genesisStore soloGenesis).validatorUpdates 0) stwoHost (admitBlock 1)
  refine ⟨by decide +kernel, ?_⟩
  have hstart : Node.start (soloFile []) = .ok (soloNode []) := rfl
  refine (export_import_iff stwoHost hstart (Along.cons hv (Along.nil _)) hc).mpr ?_
  refine (exportable_iff_rows hs (hs.wf hc) (soloFile [])).mpr ?_
  decide +kernel

/-- A second validator of weight 5 is admitted with power 1 and comes back with power 5; a bound verifier
does not come back. -/
theorem export_raises_power_and_drops_verifier :
    (Node.start (soloFile []) = .ok (soloNode []) ∧ Accepted stwoHost (soloNode []).chain (admitBlock 5) ∧
      (run (Node.block stwoHost) (soloNode []) [admitBlock 5]).chain.comet (keyOf 0xb2) = some 1 ∧
      (Node.start (run (Node.block stwoHost) (soloNode []) [admitBlock 5]).exportGenesis).toOption.map
        (fun n => n.chain.comet (keyOf 0xb2)) = some (some 5) ∧
      ¬ (run (Node.block stwoHost) (soloNode []) [admitBlock 5]).RoundTrips) ∧
    (Node.start (soloFile [7]) = .ok (soloNode [7]) ∧ (soloNode [7]).verifierAcc = [7] ∧
      (Node.start (soloNode [7]).exportGenesis).toOption.map Node.verifierAcc = some [] ∧
      ¬ (soloNode [7]).RoundTrips) := by
  have hold : (run (Node.block stwoHost) (soloNode []) [admitBlock 5]).chain.comet (keyOf 0xb2) = some 1 := by
    decide +kernel
  have hnew : (Node.start (run (Node.block stwoHost) (soloNode []) [admitBlock 5]).exportGenesis).toOption.map
      (fun n => n.chain.comet (keyOf 0xb2)) = some (some 5) := by decide +kernel
  have hdropped : (Node.start (soloNode [7]).exportGenesis).toOption.map Node.verifierAcc = some [] := by decide +kernel
  refine ⟨⟨rfl, ?_, hold, hnew, ?_⟩, rfl, rfl, hdropped, ?_⟩
  · unfold Accepted
    decide +kernel
  · rintro ⟨n, hstart, hsame⟩
    rw [hstart, Except.toOption, Option.map_some, hsame.comet, hold] at hnew
    cases hnew
  · rintro ⟨n, hstart, hsame⟩
    rw [hstart, Except.toOption, Option.map_some, hsame.verifier] at hdropped
    cases hdropped

end Keeper
end Terpz.Leanval
