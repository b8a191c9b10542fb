import Mathlib.Logic.Function.Basic
import Mathlib.Order.Basic
import Terpz.Leanval.Keeper.Bitfield

/-! Abstract membership: an append-only numbering of subjects with one participation
flag and at most one stored balance byte per number. Only admissions and departures
change it; every keeper operation is a sequence of these two acts. -/
namespace Terpz.Leanval
open Function
set_option linter.unusedSectionVars false

structure Roster (σ : Type) where
  /-- The counter as stored, modulo 2^32. -/
  next : UInt32
  /-- How many subjects hold a number. -/
  count : Nat
  index : σ → Option UInt32
  bit : UInt32 → Bool
  eb : UInt32 → Option UInt8

inductive Act (σ : Type) where
  | enroll (s : σ) (w : Int64)
  | drop (s : σ)

def Act.subject {σ : Type} : Act σ → σ
  | .enroll s _ => s
  | .drop s => s

namespace Roster
variable {σ : Type} [DecidableEq σ]

def slot (r : Roster σ) (s : σ) : UInt32 := (r.index s).getD r.next

def enroll (r : Roster σ) (s : σ) (w : Int64) : Roster σ where
  next := if (r.index s).isSome then r.next else r.next + 1
  count := if (r.index s).isSome then r.count else r.count + 1
  index := update r.index s (some (r.slot s))
  bit := if w > 0 then update r.bit (r.slot s) true else r.bit
  eb := if w > 0 ∧ r.eb (r.slot s) = none then update r.eb (r.slot s) (some (Keeper.ebFromWeight w)) else r.eb

def drop (r : Roster σ) (s : σ) : Roster σ :=
  match r.index s with
  | none => r
  | some i => { r with bit := update r.bit i false, eb := update r.eb i (some 0) }

def act (r : Roster σ) : Act σ → Roster σ
  | .enroll s w => r.enroll s w
  | .drop s => r.drop s

def acts (r : Roster σ) (as : List (Act σ)) : Roster σ := as.foldl act r

@[simp] theorem acts_nil (r : Roster σ) : r.acts [] = r := rfl
@[simp] theorem acts_cons (r : Roster σ) (a : Act σ) (as : List (Act σ)) :
    r.acts (a :: as) = (r.act a).acts as := rfl
theorem acts_append (r : Roster σ) (as bs : List (Act σ)) :
    r.acts (as ++ bs) = (r.acts as).acts bs := List.foldl_append ..

/-- The membership a subject has: its number, with the flag set. -/
def Member (r : Roster σ) (s : σ) : Prop := ∃ i, r.index s = some i ∧ r.bit i = true

/-- Numbers are a bijection onto the counter, and nothing is stored beyond it. -/
structure WF (r : Roster σ) : Prop where
  next_eq : r.next.toNat = r.count
  index_lt : ∀ s i, r.index s = some i → i < r.next
  index_inj : ∀ s t i, r.index s = some i → r.index t = some i → s = t
  index_surj : ∀ i, i < r.next → ∃ s, r.index s = some i
  bit_lt : ∀ i, r.bit i = true → i < r.next
  eb_lt : ∀ i, r.eb i ≠ none → i < r.next

/-- On the subjects in `P` the second roster has the members of the first, with their numbers
and their bytes. -/
structure SameOn (P : σ → Prop) (r r' : Roster σ) : Prop where
  member : ∀ s i, P s → (r'.index s = some i ∧ r'.bit i = true ↔ r.index s = some i ∧ r.bit i = true)
  eb : ∀ s i, P s → r.index s = some i → r.bit i = true → r'.eb i = r.eb i

theorem SameOn.refl (P : σ → Prop) (r : Roster σ) : r.SameOn P r := ⟨fun _ _ _ => Iff.rfl, fun _ _ _ _ _ => rfl⟩

theorem SameOn.trans {P : σ → Prop} {r r' r'' : Roster σ} (h : r.SameOn P r') (h' : r'.SameOn P r'') :
    r.SameOn P r'' := by
  refine ⟨fun s i hs => (h'.member s i hs).trans (h.member s i hs), ?_⟩
  intro s i hs hi hb
  obtain ⟨hi', hb'⟩ := (h.member s i hs).mpr ⟨hi, hb⟩
  exact (h'.eb s i hs hi' hb').trans (h.eb s i hs hi hb)

theorem SameOn.member_iff {P : σ → Prop} {r r' : Roster σ} (h : r.SameOn P r') {s : σ} (hs : P s) :
    r'.Member s ↔ r.Member s := exists_congr (fun i => h.member s i hs)

theorem slot_of_index {r : Roster σ} {s : σ} {i : UInt32} (h : r.index s = some i) : r.slot s = i := by
  simp [slot, h]

theorem slot_of_fresh {r : Roster σ} {s : σ} (h : r.index s = none) : r.slot s = r.next := by
  simp [slot, h]

theorem enroll_of_index {r : Roster σ} {s : σ} {i : UInt32} (w : Int64) (h : r.index s = some i) :
    (r.enroll s w).next = r.next ∧ (r.enroll s w).count = r.count ∧ (r.enroll s w).index = r.index := by
  refine ⟨by simp [enroll, h], by simp [enroll, h], ?_⟩
  change update r.index s (some (r.slot s)) = r.index
  rw [slot_of_index h, ← h, update_eq_self]

theorem index_enroll (r : Roster σ) (s t : σ) (w : Int64) :
    (r.enroll s w).index t = if t = s then some (r.slot s) else r.index t := update_apply ..

theorem index_drop (r : Roster σ) (s : σ) : (r.drop s).index = r.index := by
  unfold drop
  cases r.index s <;> rfl

theorem bit_enroll {r : Roster σ} {s : σ} {w : Int64} (hw : w > 0) (i : UInt32) :
    (r.enroll s w).bit i = if i = r.slot s then true else r.bit i := by
  simp [enroll, hw, update_apply]

theorem eb_enroll {r : Roster σ} {s : σ} {w : Int64} (hw : w > 0) (i : UInt32) :
    (r.enroll s w).eb i =
      if i = r.slot s ∧ r.eb i = none then some (Keeper.ebFromWeight w) else r.eb i := by
  by_cases he : r.eb (r.slot s) = none <;> by_cases hi : i = r.slot s <;> simp [enroll, hw, he, hi]

theorem bit_drop (r : Roster σ) (s : σ) (i : UInt32) :
    (r.drop s).bit i = if r.index s = some i then false else r.bit i := by
  unfold drop
  cases r.index s with
  | none => rfl
  | some j => simp [update_apply, eq_comm]

theorem eb_drop (r : Roster σ) (s : σ) (i : UInt32) :
    (r.drop s).eb i = if r.index s = some i then some 0 else r.eb i := by
  unfold drop
  cases r.index s with
  | none => rfl
  | some j => simp [update_apply, eq_comm]

/-- A number, once given, is never changed or taken back. -/
theorem index_act_of_some {r : Roster σ} {s : σ} {i : UInt32} (h : r.index s = some i) (a : Act σ) :
    (r.act a).index s = some i := by
  cases a with
  | enroll t w =>
    rw [act, index_enroll]
    split
    · rename_i he
      subst he
      rw [slot_of_index h]
    · exact h
  | drop t => rw [act, index_drop, h]

theorem index_acts_of_some {r : Roster σ} {s : σ} {i : UInt32} (h : r.index s = some i) (as : List (Act σ)) :
    (r.acts as).index s = some i := by
  induction as generalizing r with
  | nil => exact h
  | cons a as ih => exact ih (index_act_of_some h a)

/-- Only an enrolment of the subject itself gives it a number. -/
theorem index_acts_of_none {r : Roster σ} {s : σ} (h : r.index s = none) {as : List (Act σ)}
    (has : ∀ w, .enroll s w ∉ as) : (r.acts as).index s = none := by
  induction as generalizing r with
  | nil => exact h
  | cons a as ih =>
    refine ih ?_ (fun w hw => has w (List.mem_cons_of_mem _ hw))
    cases a with
    | enroll t w =>
      rw [act, index_enroll, if_neg, h]
      rintro rfl
      exact has w List.mem_cons_self
    | drop t => rw [act, index_drop, h]

/-- Every number given has a stored balance byte. -/
def Stored (r : Roster σ) : Prop := ∀ s i, r.index s = some i → r.eb i ≠ none

theorem eb_act_ne_none {r : Roster σ} {i : UInt32} (h : r.eb i ≠ none) (a : Act σ) : (r.act a).eb i ≠ none := by
  cases a with
  | enroll s w =>
    simp only [act, enroll]
    split
    · rw [update_apply]
      split
      · simp
      · exact h
    · exact h
  | drop s =>
    rw [act, eb_drop]
    split
    · simp
    · exact h

/-- A stored byte is kept until its slot is left, and is zero from then on. -/
theorem eb_acts_of_some {r : Roster σ} {i : UInt32} {b : UInt8} (h : r.eb i = some b) (as : List (Act σ)) :
    (r.acts as).eb i = some b ∨ (r.acts as).eb i = some 0 := by
  have hact (r : Roster σ) (c : UInt8) (hc : r.eb i = some c) (a : Act σ) :
      (r.act a).eb i = some c ∨ (r.act a).eb i = some 0 := by
    cases a with
    | enroll s w =>
      simp only [act, enroll]
      split
      · rename_i he
        rw [update_of_ne]
        · exact .inl hc
        · rintro rfl
          rw [hc] at he
          cases he.2
      · exact .inl hc
    | drop s =>
      rw [act, eb_drop]
      split
      · exact .inr rfl
      · exact .inl hc
  induction as generalizing r b with
  | nil => exact .inl h
  | cons a as ih =>
    rcases hact r b h a with hb | hz
    · exact ih hb
    · rcases ih hz with h0 | h0
      · exact .inr h0
      · exact .inr h0

theorem acts_stored {r : Roster σ} (h : r.Stored) {as : List (Act σ)}
    (has : ∀ s w, .enroll s w ∈ as → w > 0) : (r.acts as).Stored := by
  induction as generalizing r with
  | nil => exact h
  | cons a as ih =>
    refine ih ?_ (fun s w hw => has s w (List.mem_cons_of_mem _ hw))
    cases a with
    | enroll s w =>
      have hw : w > 0 := has s w List.mem_cons_self
      intro t i hi
      rw [act, index_enroll] at hi
      by_cases ht : t = s
      · rw [if_pos ht] at hi
        obtain rfl := Option.some.inj hi
        by_cases he : r.eb (r.slot s) = none
        · simp [act, enroll, hw, he]
        · exact eb_act_ne_none he _
      · rw [if_neg ht] at hi
        exact eb_act_ne_none (h t i hi) _
    | drop s =>
      intro t i hi
      rw [act, index_drop] at hi
      exact eb_act_ne_none (h t i hi) _

theorem count_le_act (r : Roster σ) (a : Act σ) : r.count ≤ (r.act a).count := by
  cases a with
  | enroll s w =>
    simp only [act, enroll]
    split <;> omega
  | drop s =>
    simp only [act, drop]
    split <;> exact Nat.le_refl _

theorem count_le_acts (r : Roster σ) (as : List (Act σ)) : r.count ≤ (r.acts as).count := by
  induction as generalizing r with
  | nil => exact Nat.le_refl _
  | cons a as ih => exact (r.count_le_act a).trans (ih _)

theorem count_acts_le (r : Roster σ) (as : List (Act σ)) : (r.acts as).count ≤ r.count + as.length := by
  induction as generalizing r with
  | nil => exact Nat.le_refl _
  | cons a as ih =>
    have hact : (r.act a).count ≤ r.count + 1 := by
      cases a with
      | enroll s w =>
        simp only [act, enroll]
        split <;> omega
      | drop s =>
        simp only [act, drop]
        split <;> exact Nat.le_succ _
    have hrest := ih (r.act a)
    rw [acts_cons, List.length_cons]
    omega

private theorem fresh_next {r : Roster σ} (h : r.WF) (hc : r.count + 1 < 2 ^ 32) :
    (r.next + 1).toNat = r.count + 1 := by
  have := h.next_eq
  rw [UInt32.toNat_add, UInt32.toNat_one]
  omega

private theorem bit_enroll_cases {r : Roster σ} (h : r.WF) {s : σ} {w : Int64} {i : UInt32}
    (hi : (r.enroll s w).bit i = true) : i = r.slot s ∨ i < r.next := by
  simp only [enroll] at hi
  split at hi
  · by_cases he : i = r.slot s
    · exact .inl he
    · rw [update_of_ne he] at hi
      exact .inr (h.bit_lt i hi)
  · exact .inr (h.bit_lt i hi)

private theorem eb_enroll_cases {r : Roster σ} (h : r.WF) {s : σ} {w : Int64} {i : UInt32}
    (hi : (r.enroll s w).eb i ≠ none) : i = r.slot s ∨ i < r.next := by
  simp only [enroll] at hi
  split at hi
  · by_cases he : i = r.slot s
    · exact .inl he
    · rw [update_of_ne he] at hi
      exact .inr (h.eb_lt i hi)
  · exact .inr (h.eb_lt i hi)

/-- A subject that has its number keeps it. -/
private theorem enroll_wf_known {r : Roster σ} (h : r.WF) {s : σ} (w : Int64) {j : UInt32} (hs : r.index s = some j) :
    (r.enroll s w).WF := by
  obtain ⟨hnext, hcount, hindex⟩ := enroll_of_index w hs
  have hj : r.slot s < r.next := by
    rw [slot_of_index hs]
    exact h.index_lt s j hs
  refine ⟨by rw [hnext, hcount]; exact h.next_eq, ?_, ?_, ?_, ?_, ?_⟩
  · rw [hnext, hindex]
    exact h.index_lt
  · rw [hindex]
    exact h.index_inj
  · rw [hnext, hindex]
    exact h.index_surj
  · intro i hi
    rw [hnext]
    exact (bit_enroll_cases h hi).elim (fun he => he ▸ hj) id
  · intro i hi
    rw [hnext]
    exact (eb_enroll_cases h hi).elim (fun he => he ▸ hj) id

private theorem lt_fresh_next {r : Roster σ} (h : r.WF) (hc : r.count + 1 < 2 ^ 32) {i : UInt32} :
    i < r.next + 1 ↔ i = r.next ∨ i < r.next := by
  rw [UInt32.lt_iff_toNat_lt, UInt32.lt_iff_toNat_lt, fresh_next h hc, ← UInt32.toNat_inj, ← h.next_eq]
  omega

/-- After a fresh number was given out, a number is the new one or an old one. -/
private theorem index_fresh {r : Roster σ} {s t : σ} {i : UInt32} (h : update r.index s (some r.next) t = some i) :
    t = s ∧ i = r.next ∨ t ≠ s ∧ r.index t = some i := by
  by_cases ht : t = s
  · subst ht
    rw [update_self] at h
    exact .inl ⟨rfl, (Option.some.inj h).symm⟩
  · rw [update_of_ne ht] at h
    exact .inr ⟨ht, h⟩

/-- A new subject gets the next number, which nobody had. -/
private theorem enroll_wf_fresh {r : Roster σ} (h : r.WF) {s : σ} (w : Int64) (hs : r.index s = none)
    (hc : (r.enroll s w).count < 2 ^ 32) : (r.enroll s w).WF := by
  have hslot := slot_of_fresh hs
  have hcount : (r.enroll s w).count = r.count + 1 := by simp [enroll, hs]
  have hnext : (r.enroll s w).next = r.next + 1 := by simp [enroll, hs]
  have hindex : (r.enroll s w).index = update r.index s (some r.next) := by simp [enroll, hslot]
  rw [hcount] at hc
  have hlt {i : UInt32} : i < r.next + 1 ↔ i = r.next ∨ i < r.next := lt_fresh_next h hc
  have hnew {t : σ} {i : UInt32} (ht : r.index t = some i) : i ≠ r.next := by
    rintro rfl
    exact UInt32.lt_irrefl _ (h.index_lt t r.next ht)
  refine ⟨by rw [hnext, hcount, fresh_next h hc], ?_, ?_, ?_, ?_, ?_⟩
  · intro t i hi
    rw [hindex] at hi
    rw [hnext, hlt]
    exact (index_fresh hi).imp And.right (fun ht => h.index_lt t i ht.2)
  · intro t u i ht hu
    rw [hindex] at ht hu
    rcases index_fresh ht with ⟨rfl, hi⟩ | ⟨-, ht'⟩ <;> rcases index_fresh hu with ⟨rfl, hi'⟩ | ⟨-, hu'⟩
    · rfl
    · exact absurd hi (hnew hu')
    · exact absurd hi' (hnew ht')
    · exact h.index_inj t u i ht' hu'
  · intro i hi
    rw [hnext, hlt] at hi
    rw [hindex]
    rcases hi with rfl | hi
    · exact ⟨s, update_self ..⟩
    · obtain ⟨t, ht⟩ := h.index_surj i hi
      refine ⟨t, ?_⟩
      rw [update_of_ne, ht]
      rintro rfl
      rw [hs] at ht
      cases ht
  · intro i hi
    rw [hnext, hlt]
    exact (bit_enroll_cases h hi).imp_left (·.trans hslot)
  · intro i hi
    rw [hnext, hlt]
    exact (eb_enroll_cases h hi).imp_left (·.trans hslot)

private theorem enroll_wf {r : Roster σ} (h : r.WF) (s : σ) (w : Int64)
    (hc : (r.enroll s w).count < 2 ^ 32) : (r.enroll s w).WF := by
  cases hs : r.index s with
  | some j => exact enroll_wf_known h w hs
  | none => exact enroll_wf_fresh h w hs hc

private theorem drop_wf {r : Roster σ} (h : r.WF) (s : σ) : (r.drop s).WF := by
  unfold drop
  cases hs : r.index s with
  | none => exact h
  | some j =>
    have hj := h.index_lt s j hs
    refine ⟨h.next_eq, h.index_lt, h.index_inj, h.index_surj, ?_, ?_⟩
    · intro i hi
      by_cases he : i = j
      · exact he ▸ hj
      · exact h.bit_lt i (by simpa [he] using hi)
    · intro i hi
      by_cases he : i = j
      · exact he ▸ hj
      · exact h.eb_lt i (by simpa [he] using hi)

/-- While fewer than 2^32 subjects hold numbers the counter does not wrap. -/
theorem acts_wf {r : Roster σ} (h : r.WF) (as : List (Act σ)) (hc : (r.acts as).count < 2 ^ 32) :
    (r.acts as).WF := by
  induction as generalizing r with
  | nil => exact h
  | cons a as ih =>
    have hle := (r.act a).count_le_acts as
    rw [acts_cons] at hc ⊢
    apply ih _ hc
    cases a with
    | enroll s w => exact enroll_wf h s w (by change (r.act (.enroll s w)).count < _; omega)
    | drop s => exact drop_wf h s

theorem wf_act {r : Roster σ} (h : r.WF) (a : Act σ) (hc : (r.act a).count < 2 ^ 32) : (r.act a).WF :=
  acts_wf h [a] hc

section OneActEach
variable {r : Roster σ} (h : r.WF) {as : List (Act σ)}
include h

/-- A subject without a number is never at a slot that is in use. -/
theorem slot_ne {s t : σ} {i : UInt32} (hi : r.index s = some i) (hst : s ≠ t) : i ≠ r.slot t := by
  intro he
  cases ht : r.index t with
  | some j =>
    rw [slot_of_index ht] at he
    subst he
    exact hst (h.index_inj s t i hi ht)
  | none =>
    rw [slot_of_fresh ht] at he
    subst he
    exact UInt32.lt_irrefl _ (h.index_lt s _ hi)

theorem eb_fresh_slot {s : σ} (hs : r.index s = none) : r.eb (r.slot s) = none := by
  rw [slot_of_fresh hs]
  by_contra he
  exact UInt32.lt_irrefl _ (h.eb_lt _ he)

private theorem act_untouched {s : σ} {i : UInt32} (hi : r.index s = some i) {a : Act σ} (ha : s ≠ a.subject) :
    (r.act a).bit i = r.bit i ∧ (r.act a).eb i = r.eb i := by
  cases a with
  | enroll t w =>
    have hne : i ≠ r.slot t := slot_ne h hi ha
    simp only [act, enroll]
    constructor
    · split
      · exact update_of_ne hne _ _
      · rfl
    · split
      · exact update_of_ne hne _ _
      · rfl
  | drop t =>
    have hne : r.index t ≠ some i := fun ht => ha (h.index_inj s t i hi ht)
    exact ⟨by rw [act, bit_drop, if_neg hne], by rw [act, eb_drop, if_neg hne]⟩

/-- Acts on other subjects leave a numbered subject's flag and byte alone. -/
theorem acts_untouched (hc : (r.acts as).count < 2 ^ 32) {s : σ} {i : UInt32} (hi : r.index s = some i)
    (hs : s ∉ as.map Act.subject) : (r.acts as).bit i = r.bit i ∧ (r.acts as).eb i = r.eb i := by
  induction as generalizing r with
  | nil => exact ⟨rfl, rfl⟩
  | cons a as ih =>
    rw [List.map_cons, List.mem_cons, not_or] at hs
    have hle := (r.act a).count_le_acts as
    rw [acts_cons] at hc ⊢
    obtain ⟨hb, he⟩ := ih (wf_act h a (by omega)) hc (index_act_of_some hi a) hs.2
    obtain ⟨hb', he'⟩ := act_untouched h hi hs.1
    exact ⟨hb.trans hb', he.trans he'⟩

variable {pre post : List (Act σ)} {s : σ} (hc : (r.acts as).count < 2 ^ 32) (hn : (as.map Act.subject).Nodup)
include hc hn

/-- One enrolment of a subject fixes its number, its flag and its byte for the whole list. -/
theorem acts_enroll {w : Int64} (hs : as = pre ++ .enroll s w :: post) (hw : w > 0) :
    (r.acts as).index s = some ((r.acts pre).slot s) ∧ (r.acts as).bit ((r.acts pre).slot s) = true ∧
      (r.acts as).eb ((r.acts pre).slot s) =
          some (((r.acts pre).eb ((r.acts pre).slot s)).getD (Keeper.ebFromWeight w)) := by
  subst hs
  rw [acts_append, acts_cons] at hc ⊢
  rw [List.map_append, List.map_cons, List.nodup_append, List.nodup_cons] at hn
  have hle1 := (r.acts pre).count_le_act (.enroll s w)
  have hle2 := ((r.acts pre).act (.enroll s w)).count_le_acts post
  have h1 : (r.acts pre).WF := acts_wf h pre (by omega)
  have h2 := wf_act h1 (.enroll s w) (by omega)
  have hidx : ((r.acts pre).act (.enroll s w)).index s = some ((r.acts pre).slot s) := by
    rw [act, index_enroll, if_pos rfl]
  obtain ⟨hb, he⟩ := acts_untouched h2 hc hidx hn.2.1.1
  refine ⟨index_acts_of_some hidx post, ?_, ?_⟩
  · rw [hb, act, bit_enroll hw, if_pos rfl]
  · rw [he, act, eb_enroll hw]
    cases (r.acts pre).eb ((r.acts pre).slot s) <;> simp

/-- A byte that is stored outlives the enrolment. -/
theorem acts_enroll_stored {w : Int64} {i : UInt32} {b : UInt8} (hs : .enroll s w ∈ as) (hw : w > 0)
    (hi : r.index s = some i) (hb : r.eb i = some b) : (r.acts as).bit i = true ∧ (r.acts as).eb i = some b := by
  obtain ⟨pre, post, hsplit⟩ := List.append_of_mem hs
  obtain ⟨_, hbit, heb⟩ := acts_enroll h hc hn hsplit hw
  have hslot := slot_of_index (index_acts_of_some hi pre)
  have hcount : (r.acts pre).count < 2 ^ 32 := by
    have hle := (r.acts pre).count_le_acts (.enroll s w :: post)
    rw [← acts_append, ← hsplit] at hle
    omega
  have hpre : s ∉ pre.map Act.subject := by
    rw [hsplit, List.map_append, List.map_cons, List.nodup_append] at hn
    exact fun hm => hn.2.2 s hm s List.mem_cons_self rfl
  rw [hslot] at hbit heb
  rw [(acts_untouched h hcount hi hpre).2, hb] at heb
  exact ⟨hbit, heb⟩

theorem acts_drop {i : UInt32} (hs : .drop s ∈ as) (hi : r.index s = some i) :
    (r.acts as).bit i = false ∧ (r.acts as).eb i = some 0 := by
  obtain ⟨pre, post, rfl⟩ := List.append_of_mem hs
  rw [acts_append, acts_cons] at hc ⊢
  rw [List.map_append, List.map_cons, List.nodup_append, List.nodup_cons] at hn
  have hle1 := (r.acts pre).count_le_act (.drop s)
  have hle2 := ((r.acts pre).act (.drop s)).count_le_acts post
  have h1 : (r.acts pre).WF := acts_wf h pre (by omega)
  have h2 := wf_act h1 (.drop s) (by omega)
  have hi1 := index_acts_of_some hi pre
  obtain ⟨hb, he⟩ := acts_untouched h2 hc (index_act_of_some hi1 (.drop s)) hn.2.1.1
  exact ⟨by rw [hb, act, bit_drop, if_pos hi1], by rw [he, act, eb_drop, if_pos hi1]⟩

/-- Enrolling members and dropping others keeps the members: only the subjects outside `P` may
come and go. -/
theorem acts_sameOn {P : σ → Prop} (hst : r.Stored) (hpos : ∀ t w, .enroll t w ∈ as → w > 0)
    (hin : ∀ t w, .enroll t w ∈ as → P t → r.Member t) (hout : ∀ t, .drop t ∈ as → P t → ¬ r.Member t) :
    r.SameOn P (r.acts as) := by
  have hkept : ∀ t i, P t → r.index t = some i →
      (r.acts as).bit i = r.bit i ∧ (r.bit i = true → (r.acts as).eb i = r.eb i) := by
    intro t i ht hi
    by_cases hmem : t ∈ as.map Act.subject
    · obtain ⟨a, ha, rfl⟩ := List.mem_map.mp hmem
      cases a with
      | enroll t w =>
        obtain ⟨j, hj, hb⟩ := hin t w ha ht
        obtain rfl := Option.some.inj (hi.symm.trans hj)
        obtain ⟨b, heb⟩ := Option.ne_none_iff_exists'.mp (hst t i hi)
        obtain ⟨hbit, he⟩ := acts_enroll_stored h hc hn ha (hpos t w ha) hi heb
        exact ⟨by rw [hbit, hb], fun _ => by rw [he, heb]⟩
      | drop t =>
        have hno : r.bit i = false := by
          by_contra hb
          exact hout t ha ht ⟨i, hi, by simpa using hb⟩
        refine ⟨by rw [(acts_drop h hc hn ha hi).1, hno], fun hb => ?_⟩
        rw [hno] at hb
        cases hb
    · obtain ⟨hb, he⟩ := acts_untouched h hc hi hmem
      exact ⟨hb, fun _ => he⟩
  refine ⟨?_, fun t i ht hi hb => (hkept t i ht hi).2 hb⟩
  intro t i ht
  cases hi : r.index t with
  | some j =>
    rw [index_acts_of_some hi]
    constructor
    · rintro ⟨he, hb⟩
      obtain rfl := Option.some.inj he
      exact ⟨rfl, by rwa [(hkept t j ht hi).1] at hb⟩
    · rintro ⟨he, hb⟩
      obtain rfl := Option.some.inj he
      exact ⟨rfl, by rwa [(hkept t j ht hi).1]⟩
  | none =>
    have hno : (r.acts as).index t = none := by
      refine index_acts_of_none hi ?_
      intro w hw
      obtain ⟨j, hj, _⟩ := hin t w hw ht
      rw [hi] at hj
      cases hj
    simp [hno]

end OneActEach

def enrolments (es : List (σ × Int64)) : List (Act σ) := es.map (fun e => .enroll e.1 e.2)

theorem count_enrolments {r : Roster σ} {es : List (σ × Int64)} (hn : (es.map Prod.fst).Nodup)
    (hfresh : ∀ e ∈ es, r.index e.1 = none) : (r.acts (enrolments es)).count = r.count + es.length := by
  induction es generalizing r with
  | nil => rfl
  | cons e es ih =>
    obtain ⟨he, hn⟩ := List.nodup_cons.mp hn
    have hcount : (r.enroll e.1 e.2).count = r.count + 1 := by
      rw [enroll, hfresh e List.mem_cons_self]
      rfl
    have hrest : ∀ e' ∈ es, (r.enroll e.1 e.2).index e'.1 = none := by
      intro e' he'
      have hne : e'.1 ≠ e.1 := fun heq => he (List.mem_map.mpr ⟨e', he', heq⟩)
      rw [index_enroll, if_neg hne]
      exact hfresh e' (List.mem_cons_of_mem _ he')
    rw [enrolments, List.map_cons, acts_cons, act]
    refine (ih hn hrest).trans ?_
    rw [hcount, List.length_cons]
    omega

/-- Distinct subjects enrolled into an empty roster are numbered in order, each with its own balance. -/
theorem enrolments_in_order {r : Roster σ} (hr : r.WF) (hempty : ∀ s, r.index s = none) (hzero : r.count = 0)
    (es : List (σ × Int64)) (hn : (es.map Prod.fst).Nodup) (hw : ∀ e ∈ es, e.2 > 0) (hc : es.length < 2 ^ 32)
    {k : Nat} {e : σ × Int64} (hk : es[k]? = some e) :
    (r.acts (enrolments es)).index e.1 = some (UInt32.ofNat k) ∧
    (r.acts (enrolments es)).bit (UInt32.ofNat k) = true ∧
    (r.acts (enrolments es)).eb (UInt32.ofNat k) = some (Keeper.ebFromWeight e.2) := by
  obtain ⟨hlt, rfl⟩ := List.getElem?_eq_some_iff.mp hk
  have hsplit : es = es.take k ++ es[k] :: es.drop (k + 1) := by
    rw [← List.drop_eq_getElem_cons hlt, List.take_append_drop]
  have hpre : ((es.take k).map Prod.fst).Nodup := hn.sublist ((List.take_sublist k es).map _)
  have hcount : (r.acts (enrolments (es.take k))).count = k := by
    rw [count_enrolments hpre (fun e _ => hempty e.1), hzero, List.length_take]
    omega
  have hwf : (r.acts (enrolments (es.take k))).WF := acts_wf hr _ (by omega)
  have hfresh : (r.acts (enrolments (es.take k))).index es[k].1 = none := by
    refine index_acts_of_none (hempty _) ?_
    intro w hmem
    obtain ⟨e, he, heq⟩ := List.mem_map.mp hmem
    rw [hsplit, List.map_append, List.map_cons] at hn
    obtain ⟨-, -, hdisjoint⟩ := List.nodup_append.mp hn
    exact hdisjoint _ (List.mem_map_of_mem he) _ List.mem_cons_self (Act.enroll.inj heq).1
  have hslot : (r.acts (enrolments (es.take k))).slot es[k].1 = UInt32.ofNat k := by
    have hnext : (r.acts (enrolments (es.take k))).next.toNat = k := hwf.next_eq.trans hcount
    rw [slot_of_fresh hfresh, ← UInt32.ofNat_toNat (x := (r.acts (enrolments (es.take k))).next), hnext]
  have htotal : (r.acts (enrolments es)).count < 2 ^ 32 := by
    rw [count_enrolments hn (fun e _ => hempty e.1), hzero]
    omega
  have hnodup : ((enrolments es).map Act.subject).Nodup := by
    rw [enrolments, List.map_map]
    exact hn
  have hacts : enrolments es = enrolments (es.take k) ++ .enroll es[k].1 es[k].2 :: enrolments (es.drop (k + 1)) := by
    conv_lhs => rw [hsplit]
    rw [enrolments, List.map_append, List.map_cons]
    rfl
  have hone := acts_enroll hr htotal hnodup hacts (hw _ (List.getElem_mem hlt))
  rw [eb_fresh_slot hwf hfresh, hslot] at hone
  exact hone

end Roster
end Terpz.Leanval
