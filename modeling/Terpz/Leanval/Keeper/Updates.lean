import Terpz.Leanval.Keeper.Bonded

/-! Comet validator updates: the difference between the roster and the last powers sent.
A first admission beside a live set enters with power 1; a power is never raised. -/
namespace Terpz.Leanval.Keeper
open Lib Lib.PrefixStore

structure ValidatorUpdate where
  pubKey : Bytes
  power : Int64
  deriving DecidableEq, Repr

def lastPower (st : Store) (subject : Bytes) : Int64 := getI64 (get st (lastPowerKey subject))

/-- The power one roster row sends, given the last one sent; `none` leaves it as it is. -/
def rowPower (usingBits : Bool) (existingTotal prev : Int64) (s : SubjectPower) : Option Int64 :=
  if s.subject.length ≠ 32 then none
  else if usingBits && (!s.hasProof || s.weight == 0) then none
  else if prev == 0 then some (if existingTotal > 0 && s.weight > 1 then 1 else s.weight)
  else if prev == s.weight then none
  else if s.weight > prev then none
  else some s.weight

def sendPower (acc : Store × List ValidatorUpdate) (subject : Bytes) (w : Int64) : Store × List ValidatorUpdate :=
  (set acc.1 (lastPowerKey subject) (putI64 w), acc.2 ++ [⟨subject, w⟩])

def updateRow (usingBits : Bool) (existingTotal : Int64) (acc : Store × List ValidatorUpdate)
    (s : SubjectPower) : Store × List ValidatorUpdate :=
  match rowPower usingBits existingTotal (lastPower acc.1 s.subject) s with
  | none => acc
  | some w => sendPower acc s.subject w

/-- A subject that is no longer in the roster; only 32-byte subjects are Comet keys. -/
def zeroRow (seen : List Bytes) (acc : Store × List ValidatorUpdate) (e : Bytes × Int64) :
    Store × List ValidatorUpdate :=
  if e.1 ∈ seen then acc
  else if e.2 = 0 then acc
  else if e.1.length = 32 then sendPower acc e.1 0
  else (set acc.1 (lastPowerKey e.1) (putI64 0), acc.2)

/-- Every subject a power was ever sent for, with the last one. -/
def powerEntries (st : Store) : List (Bytes × Int64) :=
  (iteratePrefix st [lastUpdatesPrefix]).map (fun e => (e.1.drop 1, getI64 e.2))

def usingBits (st : Store) : Bool := (get st bitfieldKey).length > 0 || nextDepositIndex st > 0

def cometRows (rows : List SubjectPower) : List SubjectPower := rows.filter (fun s => s.subject.length = 32)

def existingTotal (st : Store) (rows : List SubjectPower) : Int64 :=
  (cometRows rows).foldl (fun t s => if lastPower st s.subject > 0 then t + lastPower st s.subject else t) 0

/-- The two passes over a given roster. -/
def sendUpdates (st : Store) (bits : Bool) (rows : List SubjectPower) : Store × List ValidatorUpdate :=
  let acc := rows.foldl (updateRow bits (existingTotal st rows)) (st, [])
  (powerEntries acc.1).foldl (zeroRow ((cometRows rows).map (·.subject))) acc

def validatorUpdates (st : Store) (period : UInt64) : Store × List ValidatorUpdate :=
  if usingBits st then sendUpdates st true (debugSubjectsFromBits st)
  else
    let (st, rows) := bondedSetOrCarry st period
    sendUpdates st false rows

theorem lastPower_eq_of_agree {st st' : Store} (h : Agree [lastUpdatesPrefix] st st') (s : Bytes) :
    lastPower st s = lastPower st' s := congrArg getI64 (h.get_eq ⟨s, rfl⟩)

theorem lastPower_set (st : Store) (s t : Bytes) (w : Int64) :
    lastPower (set st (lastPowerKey s) (putI64 w)) t = if s = t then w else lastPower st t := by
  rw [lastPower, get_set]
  by_cases h : s = t
  · simp [h]
  · simp [h, lastPower]

section Passes
variable (bits : Bool) (existing : Int64)

/-- Each row is decided by the power its own subject had before the pass. -/
theorem foldl_updateRow {rows : List SubjectPower} (hn : (rows.map (·.subject)).Nodup)
    (acc : Store × List ValidatorUpdate) :
    (∀ r ∈ rows, lastPower (rows.foldl (updateRow bits existing) acc).1 r.subject =
        (rowPower bits existing (lastPower acc.1 r.subject) r).getD (lastPower acc.1 r.subject)) ∧
    (∀ s, s ∉ rows.map (·.subject) →
        lastPower (rows.foldl (updateRow bits existing) acc).1 s = lastPower acc.1 s) ∧
    (rows.foldl (updateRow bits existing) acc).2 = acc.2 ++ rows.filterMap (fun r =>
        (rowPower bits existing (lastPower acc.1 r.subject) r).map (ValidatorUpdate.mk r.subject)) := by
  induction rows generalizing acc with
  | nil => simp
  | cons r rows ih =>
    obtain ⟨hr, hn⟩ := List.nodup_cons.mp hn
    have hne (t : SubjectPower) (ht : t ∈ rows) : r.subject ≠ t.subject :=
      fun he => hr (List.mem_map.mpr ⟨t, ht, he.symm⟩)
    have hstep (s : Bytes) : lastPower (updateRow bits existing acc r).1 s =
        if r.subject = s then
          (rowPower bits existing (lastPower acc.1 r.subject) r).getD (lastPower acc.1 r.subject)
        else lastPower acc.1 s := by
      unfold updateRow
      cases rowPower bits existing (lastPower acc.1 r.subject) r with
      | none =>
        by_cases hs : r.subject = s
        · simp [hs]
        · simp [hs]
      | some w => exact lastPower_set _ _ _ _
    have hups : (updateRow bits existing acc r).2 = acc.2 ++
        ((rowPower bits existing (lastPower acc.1 r.subject) r).map (ValidatorUpdate.mk r.subject)).toList := by
      unfold updateRow
      cases rowPower bits existing (lastPower acc.1 r.subject) r with
      | none => simp
      | some w => rfl
    obtain ⟨hin, hout, hlist⟩ := ih hn (updateRow bits existing acc r)
    refine ⟨?_, ?_, ?_⟩
    · intro t ht
      rcases List.mem_cons.mp ht with rfl | ht
      · rw [List.foldl_cons, hout _ hr, hstep, if_pos rfl]
      · rw [List.foldl_cons, hin t ht, hstep, if_neg (hne t ht)]
    · intro s hs
      rw [List.map_cons, List.mem_cons, not_or] at hs
      rw [List.foldl_cons, hout s hs.2, hstep, if_neg (Ne.symm hs.1)]
    · rw [List.foldl_cons, hlist, hups, List.append_assoc]
      congr 1
      have hcongr : rows.filterMap (fun t => (rowPower bits existing
            (lastPower (updateRow bits existing acc r).1 t.subject) t).map (ValidatorUpdate.mk t.subject)) =
          rows.filterMap (fun t => (rowPower bits existing
            (lastPower acc.1 t.subject) t).map (ValidatorUpdate.mk t.subject)) := by
        apply List.filterMap_congr
        intro t ht
        rw [hstep, if_neg (hne t ht)]
      rw [hcongr, List.filterMap_cons]
      cases (rowPower bits existing (lastPower acc.1 r.subject) r).map (ValidatorUpdate.mk r.subject) <;> rfl

private theorem zeroRow_power (seen : List Bytes) (acc : Store × List ValidatorUpdate) (e : Bytes × Int64) (s : Bytes) :
    lastPower (zeroRow seen acc e).1 s = if s ∉ seen ∧ e.1 = s ∧ e.2 ≠ 0 then 0 else lastPower acc.1 s := by
  unfold zeroRow sendPower
  by_cases hseen : e.1 ∈ seen
  · have : ¬ (s ∉ seen ∧ e.1 = s ∧ e.2 ≠ 0) := fun h => h.1 (h.2.1 ▸ hseen)
    simp [hseen, this]
  · by_cases hz : e.2 = 0
    · simp [hz]
    · have hset : lastPower (set acc.1 (lastPowerKey e.1) (putI64 0)) s =
          if s ∉ seen ∧ e.1 = s ∧ e.2 ≠ 0 then 0 else lastPower acc.1 s := by
        rw [lastPower_set]
        by_cases hs : e.1 = s
        · simp [← hs, hseen, hz]
        · simp [hs]
      rw [if_neg hseen, if_neg hz]
      split <;> exact hset

/-- After the second pass a listed subject outside the roster has no power. -/
theorem foldl_zeroRow_power (seen : List Bytes) (es : List (Bytes × Int64)) (acc : Store × List ValidatorUpdate)
    (s : Bytes) :
    lastPower (es.foldl (zeroRow seen) acc).1 s =
      if s ∉ seen ∧ ∃ e ∈ es, e.1 = s ∧ e.2 ≠ 0 then 0 else lastPower acc.1 s := by
  induction es generalizing acc with
  | nil => simp
  | cons e es ih =>
    rw [List.foldl_cons, ih, zeroRow_power]
    by_cases hseen : s ∈ seen
    · simp [hseen]
    · by_cases he : e.1 = s ∧ e.2 ≠ 0
      · simp [hseen, he]
      · simp only [hseen, he, not_false_eq_true, true_and, and_false, if_false, List.exists_mem_cons_iff, false_or]

theorem foldl_zeroRow_updates (seen : List Bytes) (es : List (Bytes × Int64)) (acc : Store × List ValidatorUpdate) :
    (es.foldl (zeroRow seen) acc).2 = acc.2 ++ es.filterMap (fun e =>
      if e.1 ∉ seen ∧ e.2 ≠ 0 ∧ e.1.length = 32 then some ⟨e.1, 0⟩ else none) := by
  induction es generalizing acc with
  | nil => simp
  | cons e es ih =>
    rw [List.foldl_cons, ih, List.filterMap_cons]
    unfold zeroRow sendPower
    by_cases hseen : e.1 ∈ seen
    · simp [hseen]
    · by_cases hz : e.2 = 0
      · simp [hz]
      · by_cases hl : e.1.length = 32
        · simp [hseen, hz, hl]
        · simp [hseen, hz, hl]

end Passes

theorem mem_powerEntries {st : Store} {s : Bytes} {w : Int64} (h : (s, w) ∈ powerEntries st) :
    lastPower st s = w := by
  obtain ⟨⟨k, v⟩, hmem, he⟩ := List.mem_map.mp h
  obtain ⟨⟨t, rfl⟩, hv⟩ := mem_iteratePrefix.mp hmem
  obtain ⟨rfl, rfl⟩ := Prod.mk.inj he
  exact congrArg getI64 (get_of_getElem? hv)

theorem mem_powerEntries_of_ne_zero {st : Store} {s : Bytes} (h : lastPower st s ≠ 0) :
    (s, lastPower st s) ∈ powerEntries st := by
  cases hv : st[lastPowerKey s]? with
  | none =>
    have : lastPower st s = 0 := by simp [lastPower, PrefixStore.get, hv]
    exact absurd this h
  | some v =>
    refine List.mem_map.mpr ⟨(lastPowerKey s, v), mem_iteratePrefix.mpr ⟨⟨s, rfl⟩, hv⟩, ?_⟩
    rw [lastPower, get_of_getElem? hv]
    rfl

theorem powerEntries_nodup (st : Store) : ((powerEntries st).map Prod.fst).Nodup := by
  have hkeys := iteratePrefix_keys_nodup st [lastUpdatesPrefix]
  rw [powerEntries, List.map_map]
  rw [List.Nodup, List.pairwise_map] at hkeys ⊢
  refine hkeys.imp_of_mem ?_
  intro a b ha hb hne he
  obtain ⟨⟨s, hs⟩, _⟩ := mem_iteratePrefix.mp ha
  obtain ⟨⟨t, ht⟩, _⟩ := mem_iteratePrefix.mp hb
  rw [← hs, ← ht] at hne
  rw [Function.comp_apply, Function.comp_apply, ← hs, ← ht] at he
  exact hne (congrArg _ he)

/-- Sending updates writes the last-power table and nothing else. -/
theorem sendUpdates_store {P : Store → Prop} {st : Store} (bits : Bool) (rows : List SubjectPower) (h : P st)
    (hset : ∀ st s w, P st → P (set st (lastPowerKey s) (putI64 w))) : P (sendUpdates st bits rows).1 := by
  have hrows (ex : Int64) (acc : Store × List ValidatorUpdate) (hacc : P acc.1) :
      P (rows.foldl (updateRow bits ex) acc).1 := by
    induction rows generalizing acc with
    | nil => exact hacc
    | cons r rows ih =>
      refine ih _ ?_
      unfold updateRow
      split
      · exact hacc
      · exact hset _ _ _ hacc
  have hzero (seen : List Bytes) (es : List (Bytes × Int64)) (acc : Store × List ValidatorUpdate) (hacc : P acc.1) :
      P (es.foldl (zeroRow seen) acc).1 := by
    induction es generalizing acc with
    | nil => exact hacc
    | cons e es ih =>
      refine ih _ ?_
      unfold zeroRow
      split
      · exact hacc
      · split
        · exact hacc
        · split
          · exact hset _ _ _ hacc
          · exact hset _ _ _ hacc
  exact hzero _ _ _ (hrows _ _ h)

theorem roster_sendUpdates (st : Store) (bits : Bool) (rows : List SubjectPower) :
    roster (sendUpdates st bits rows).1 = roster st :=
  sendUpdates_store (P := fun st' => roster st' = roster st) bits rows rfl
    (fun _ _ _ h => (roster_set rfl).trans h)

theorem agree_sendUpdates {b : UInt8} (hb : b ≠ lastUpdatesPrefix) (st : Store) (bits : Bool)
    (rows : List SubjectPower) : Agree [b] st (sendUpdates st bits rows).1 :=
  sendUpdates_store (P := Agree [b] st) bits rows (Agree.refl _ _)
    (fun _ _ _ h => h.trans (agree_set_table hb))

theorem nodup_map_filterMap {α β γ : Type} {f : α → Option β} {key : α → γ} {key' : β → γ} {l : List α}
    (h : ∀ a b, f a = some b → key' b = key a) (hn : (l.map key).Nodup) : ((l.filterMap f).map key').Nodup := by
  induction l with
  | nil => exact List.nodup_nil
  | cons a l ih =>
    obtain ⟨ha, hn⟩ := List.nodup_cons.mp hn
    rw [List.filterMap_cons]
    cases hf : f a with
    | none => exact ih hn
    | some b =>
      refine List.nodup_cons.mpr ⟨?_, ih hn⟩
      rw [h a b hf]
      intro hmem
      obtain ⟨c, hc, hca⟩ := List.mem_map.mp hmem
      obtain ⟨a', ha', hfa⟩ := List.mem_filterMap.mp hc
      exact ha (List.mem_map.mpr ⟨a', ha', by rw [← h a' c hfa, hca]⟩)

section Send
variable {st : Store} {bits : Bool} {rows : List SubjectPower}

theorem mem_seen {s : Bytes} :
    s ∈ (cometRows rows).map (·.subject) ↔ s.length = 32 ∧ s ∈ rows.map (·.subject) := by
  simp only [cometRows, List.mem_map, List.mem_filter, decide_eq_true_eq]
  constructor
  · rintro ⟨r, ⟨hr, hl⟩, rfl⟩
    exact ⟨hl, r, hr, rfl⟩
  · rintro ⟨hl, r, hr, rfl⟩
    exact ⟨r, ⟨hr, hl⟩, rfl⟩

theorem rowPower_length {ex prev : Int64} {r : SubjectPower} {w : Int64}
    (h : rowPower bits ex prev r = some w) : r.subject.length = 32 := by
  by_contra hl
  rw [rowPower, if_pos hl] at h
  cases h

/-- Everyone else ends with power zero. -/
theorem sendUpdates_power_other {s : Bytes} (hs : s ∉ (cometRows rows).map (·.subject)) :
    lastPower (sendUpdates st bits rows).1 s = 0 := by
  rw [sendUpdates, foldl_zeroRow_power]
  split
  · rfl
  · rename_i hc
    by_contra hne
    exact hc ⟨hs, _, mem_powerEntries_of_ne_zero hne, rfl, hne⟩

variable (hn : (rows.map (·.subject)).Nodup)
include hn

/-- A roster subject keeps its last power or gets the one its row sends. -/
theorem sendUpdates_power_row {r : SubjectPower} (hr : r ∈ rows) (hl : r.subject.length = 32) :
    lastPower (sendUpdates st bits rows).1 r.subject =
      (rowPower bits (existingTotal st rows) (lastPower st r.subject) r).getD (lastPower st r.subject) := by
  have hseen : r.subject ∈ (cometRows rows).map (·.subject) := mem_seen.mpr ⟨hl, List.mem_map_of_mem hr⟩
  rw [sendUpdates, foldl_zeroRow_power, if_neg (fun h => h.1 hseen)]
  exact (foldl_updateRow _ _ hn (st, [])).1 r hr

theorem lastPower_firstPass {s : Bytes} (hs : s ∉ (cometRows rows).map (·.subject)) :
    lastPower (rows.foldl (updateRow bits (existingTotal st rows)) (st, [])).1 s = lastPower st s := by
  obtain ⟨hin, hout, _⟩ := foldl_updateRow bits (existingTotal st rows) hn (st, [])
  by_cases hr : s ∈ rows.map (·.subject)
  · obtain ⟨r, hmem, rfl⟩ := List.mem_map.mp hr
    rw [hin r hmem]
    cases hp : rowPower bits (existingTotal st rows) (lastPower st r.subject) r with
    | none => rfl
    | some w => exact absurd (mem_seen.mpr ⟨rowPower_length hp, hr⟩) hs
  · exact hout s hr

theorem sendUpdates_list :
    (sendUpdates st bits rows).2 =
      rows.filterMap (fun r => (rowPower bits (existingTotal st rows) (lastPower st r.subject) r).map
        (ValidatorUpdate.mk r.subject)) ++
      (powerEntries (rows.foldl (updateRow bits (existingTotal st rows)) (st, [])).1).filterMap (fun e =>
        if e.1 ∉ (cometRows rows).map (·.subject) ∧ e.2 ≠ 0 ∧ e.1.length = 32 then some ⟨e.1, 0⟩ else none) := by
  rw [sendUpdates, foldl_zeroRow_updates, (foldl_updateRow _ _ hn (st, [])).2.2, List.nil_append]

/-- What a batch holds: the powers its rows send, and a zero for each departed validator. -/
theorem mem_sendUpdates {s : Bytes} {w : Int64} :
    ⟨s, w⟩ ∈ (sendUpdates st bits rows).2 ↔
      (∃ r ∈ rows, r.subject = s ∧ rowPower bits (existingTotal st rows) (lastPower st s) r = some w) ∨
      (w = 0 ∧ s ∉ (cometRows rows).map (·.subject) ∧ lastPower st s ≠ 0 ∧ s.length = 32) := by
  rw [sendUpdates_list hn, List.mem_append, List.mem_filterMap, List.mem_filterMap]
  refine or_congr ?_ ?_
  · constructor
    · rintro ⟨r, hr, hw⟩
      obtain ⟨v, hv, he⟩ := Option.map_eq_some_iff.mp hw
      obtain ⟨rfl, rfl⟩ := ValidatorUpdate.mk.inj he
      exact ⟨r, hr, rfl, hv⟩
    · rintro ⟨r, hr, rfl, hw⟩
      exact ⟨r, hr, by rw [hw]; rfl⟩
  · constructor
    · rintro ⟨⟨t, v⟩, ht, hw⟩
      split at hw
      · rename_i hc
        obtain ⟨rfl, rfl⟩ := ValidatorUpdate.mk.inj (Option.some.inj hw)
        rw [← mem_powerEntries ht, lastPower_firstPass hn hc.1] at hc
        exact ⟨rfl, hc⟩
      · cases hw
    · rintro ⟨rfl, hs, hp, hl⟩
      have hfirst : lastPower (rows.foldl (updateRow bits (existingTotal st rows)) (st, [])).1 s = lastPower st s :=
        lastPower_firstPass hn hs
      rw [← hfirst] at hp
      exact ⟨_, mem_powerEntries_of_ne_zero hp, if_pos ⟨hs, hp, hl⟩⟩

/-- No batch names a key twice. -/
theorem sendUpdates_nodup : ((sendUpdates st bits rows).2.map (·.pubKey)).Nodup := by
  rw [sendUpdates_list hn, List.map_append]
  refine List.nodup_append.mpr ⟨?_, ?_, ?_⟩
  · refine nodup_map_filterMap ?_ hn
    intro r u hu
    obtain ⟨w, _, rfl⟩ := Option.map_eq_some_iff.mp hu
    rfl
  · refine nodup_map_filterMap ?_ (powerEntries_nodup _)
    intro e u hu
    split at hu
    · obtain rfl := Option.some.inj hu
      rfl
    · cases hu
  · intro a ha b hb hab
    obtain ⟨u, hu, rfl⟩ := List.mem_map.mp ha
    obtain ⟨v, hv, rfl⟩ := List.mem_map.mp hb
    obtain ⟨r, hr, hru⟩ := List.mem_filterMap.mp hu
    obtain ⟨e, _, hev⟩ := List.mem_filterMap.mp hv
    obtain ⟨w, _, rfl⟩ := Option.map_eq_some_iff.mp hru
    split at hev
    · rename_i hc
      obtain rfl := Option.some.inj hev
      exact hc.1 (mem_seen.mpr ⟨hc.2.2, List.mem_map.mpr ⟨r, hr, hab⟩⟩)
    · cases hev

end Send

end Terpz.Leanval.Keeper
