import Mathlib.Data.List.Nodup
import Mathlib.Data.Set.Function
import Terpz.Lib.Run

/-! A pool with one item for each key. An item is added unless its key is there, and a batch takes out the keys it
contains. Which items a history leaves in the pool is said without running it. -/
namespace Terpz.Lib.Pool
variable {τ κ : Type} [DecidableEq κ] (key : τ → κ)

inductive Event (τ : Type) where
  | accept (x : τ)
  | remove (xs : List τ)

def step (pool : List τ) : Event τ → List τ
  | .accept x => if key x ∈ pool.map key then pool else pool ++ [x]
  | .remove xs => pool.filter (fun x => key x ∉ xs.map key)

/-- A batch of the history contains the key. -/
def Removes (es : List (Event τ)) (k : κ) : Prop := ∃ xs, .remove xs ∈ es ∧ k ∈ xs.map key

def Event.accepted : Event τ → Option τ
  | .accept x => some x
  | .remove _ => none

/-- Whether an event takes out the key. -/
def Event.removes (k : κ) : Event τ → Bool
  | .accept _ => false
  | .remove xs => k ∈ xs.map key

/-- The items of a history, accepted or in a batch. -/
def Mentioned (es : List (Event τ)) : Set τ := { x | .accept x ∈ es ∨ ∃ xs, .remove xs ∈ es ∧ x ∈ xs }

/-- The accepted items that no later batch contains, in the order of their acceptance. -/
def waiting : List (Event τ) → List τ
  | [] => []
  | .remove _ :: es => waiting es
  | .accept x :: es => if es.any (Event.removes key (key x)) then waiting es else x :: waiting es

/-- The first item of each key. -/
def firstOfKey : List τ → List τ
  | [] => []
  | x :: xs => x :: (firstOfKey xs).filter (fun y => key y ≠ key x)

variable {key}

theorem any_removes {es : List (Event τ)} {k : κ} : es.any (Event.removes key k) = true ↔ Removes key es k := by
  rw [List.any_eq_true]
  constructor
  · rintro ⟨e, he, hk⟩
    cases e with
    | accept x => cases hk
    | remove xs => exact ⟨xs, he, decide_eq_true_eq.mp hk⟩
  · rintro ⟨xs, he, hk⟩
    exact ⟨.remove xs, he, decide_eq_true_eq.mpr hk⟩

theorem mem_waiting {es : List (Event τ)} {x : τ} :
    x ∈ waiting key es ↔ ∃ pre post, es = pre ++ .accept x :: post ∧ ¬ Removes key post (key x) := by
  induction es with
  | nil =>
    constructor
    · intro h
      cases h
    · rintro ⟨pre, post, h, -⟩
      exact absurd h (by simp)
  | cons e es ih =>
    have hlater : x ∈ waiting key es →
        ∃ pre post, e :: es = pre ++ .accept x :: post ∧ ¬ Removes key post (key x) := by
      intro h
      obtain ⟨pre, post, rfl, hpost⟩ := ih.mp h
      exact ⟨e :: pre, post, rfl, hpost⟩
    have hsplit : (∃ pre post, e :: es = pre ++ .accept x :: post ∧ ¬ Removes key post (key x)) →
        (e = .accept x ∧ ¬ Removes key es (key x)) ∨ x ∈ waiting key es := by
      rintro ⟨pre, post, h, hpost⟩
      cases pre with
      | nil =>
        obtain ⟨rfl, rfl⟩ := List.cons.inj h
        exact .inl ⟨rfl, hpost⟩
      | cons e' pre => exact .inr (ih.mpr ⟨pre, post, (List.cons.inj h).2, hpost⟩)
    cases e with
    | remove xs =>
      refine ⟨hlater, fun h => ?_⟩
      rcases hsplit h with ⟨he, -⟩ | h
      · cases he
      · exact h
    | accept y =>
      rw [waiting]
      constructor
      · intro h
        split at h
        · exact hlater h
        · rename_i hany
          rcases List.mem_cons.mp h with rfl | h
          · exact ⟨[], es, rfl, fun hr => hany (any_removes.mpr hr)⟩
          · exact hlater h
      · intro h
        rcases hsplit h with ⟨he, hno⟩ | h
        · cases he
          rw [if_neg (fun hr => hno (any_removes.mp hr))]
          exact List.mem_cons_self
        · split
          · exact h
          · exact List.mem_cons_of_mem _ h

/-- The items waiting are among the accepted ones, in their order. -/
theorem waiting_sublist (es : List (Event τ)) : (waiting key es).Sublist (es.filterMap Event.accepted) := by
  induction es with
  | nil => exact List.Sublist.slnil
  | cons e es ih =>
    cases e with
    | remove xs => exact ih
    | accept x =>
      have hcons : (Event.accept x :: es).filterMap Event.accepted = x :: es.filterMap Event.accepted := rfl
      rw [waiting, hcons]
      split
      · exact ih.cons _
      · exact ih.cons_cons _

theorem firstOfKey_sublist (l : List τ) : (firstOfKey key l).Sublist l := by
  induction l with
  | nil => exact List.Sublist.slnil
  | cons x l ih => exact (List.filter_sublist.trans ih).cons_cons x

theorem firstOfKey_nodup (l : List τ) : ((firstOfKey key l).map key).Nodup := by
  induction l with
  | nil => exact List.nodup_nil
  | cons x l ih =>
    rw [firstOfKey, List.map_cons, List.nodup_cons]
    constructor
    · intro h
      obtain ⟨y, hy, hyx⟩ := List.mem_map.mp h
      exact of_decide_eq_true (List.mem_filter.mp hy).2 hyx
    · exact ih.sublist (List.filter_sublist.map key)

theorem mem_keys_firstOfKey {l : List τ} {k : κ} : k ∈ (firstOfKey key l).map key ↔ k ∈ l.map key := by
  induction l with
  | nil => rfl
  | cons x l ih =>
    rw [firstOfKey, List.map_cons, List.map_cons, List.mem_cons, List.mem_cons, ← ih]
    by_cases hk : k = key x
    · simp only [hk, true_or]
    · simp only [hk, false_or, List.mem_map, List.mem_filter, decide_eq_true_eq]
      constructor
      · rintro ⟨y, ⟨hy, -⟩, rfl⟩
        exact ⟨y, hy, rfl⟩
      · rintro ⟨y, hy, rfl⟩
        exact ⟨y, ⟨hy, hk⟩, rfl⟩

/-- Where no two items of a history share a key, the pool is said in terms of items alone. -/
theorem mem_firstOfKey_waiting {es : List (Event τ)} (hinj : Set.InjOn key (Mentioned es)) {x : τ} :
    x ∈ firstOfKey key (waiting key es) ↔
      ∃ pre post, es = pre ++ .accept x :: post ∧ ∀ xs, .remove xs ∈ post → x ∉ xs := by
  constructor
  · intro h
    obtain ⟨pre, post, hes, hno⟩ := mem_waiting.mp ((firstOfKey_sublist _).subset h)
    exact ⟨pre, post, hes, fun xs hxs hx => hno ⟨xs, hxs, List.mem_map_of_mem hx⟩⟩
  · rintro ⟨pre, post, rfl, hno⟩
    have hx : x ∈ Mentioned (pre ++ .accept x :: post) := .inl (by simp)
    have hwaits : x ∈ waiting key (pre ++ .accept x :: post) := by
      refine mem_waiting.mpr ⟨pre, post, rfl, ?_⟩
      rintro ⟨xs, hxs, hkey⟩
      obtain ⟨y, hy, hyx⟩ := List.mem_map.mp hkey
      have hym : y ∈ Mentioned (pre ++ .accept x :: post) := .inr ⟨xs, by simp [hxs], hy⟩
      exact hno xs hxs (hinj hym hx hyx ▸ hy)
    have hkey : key x ∈ (firstOfKey key (waiting key (pre ++ .accept x :: post))).map key :=
      mem_keys_firstOfKey.mpr (List.mem_map_of_mem hwaits)
    obtain ⟨y, hy, hyx⟩ := List.mem_map.mp hkey
    have hywaits : y ∈ waiting key (pre ++ .accept x :: post) := (firstOfKey_sublist _).subset hy
    obtain ⟨pre', post', hes, -⟩ := mem_waiting.mp hywaits
    have hym : y ∈ Mentioned (pre ++ .accept x :: post) := .inl (by rw [hes]; simp)
    exact hinj hym hx hyx ▸ hy

section Append

theorem firstOfKey_append_singleton (l : List τ) (x : τ) :
    firstOfKey key (l ++ [x]) = if key x ∈ l.map key then firstOfKey key l else firstOfKey key l ++ [x] := by
  induction l with
  | nil => rfl
  | cons y l ih =>
    rw [List.cons_append, firstOfKey, ih, firstOfKey, List.map_cons]
    by_cases hl : key x ∈ l.map key
    · rw [if_pos hl, if_pos (List.mem_cons_of_mem _ hl)]
    · by_cases hy : key x = key y
      · rw [if_neg hl, if_pos (hy ▸ List.mem_cons_self), List.filter_append]
        simp [hy]
      · rw [if_neg hl, if_neg (by simp [hy, hl]), List.filter_append]
        simp [hy]

theorem firstOfKey_filter (l : List τ) (p : κ → Bool) :
    firstOfKey key (l.filter (fun x => p (key x))) = (firstOfKey key l).filter (fun x => p (key x)) := by
  induction l with
  | nil => rfl
  | cons x l ih =>
    rw [firstOfKey, List.filter_cons, List.filter_cons, List.filter_filter]
    by_cases hx : p (key x) = true
    · rw [if_pos hx, if_pos hx, firstOfKey, ih, List.filter_filter]
      congr 2
      funext y
      exact Bool.and_comm _ _
    · rw [if_neg hx, if_neg hx, ih]
      -- what shares the key of `x` fails the test with it
      refine List.filter_congr (fun y _ => ?_)
      by_cases hy : key y = key x
      · simp [hy, hx]
      · simp [hy]

theorem waiting_append_accept (es : List (Event τ)) (x : τ) :
    waiting key (es ++ [.accept x]) = waiting key es ++ [x] := by
  induction es with
  | nil => rfl
  | cons e es ih =>
    cases e with
    | remove xs => exact ih
    | accept y =>
      rw [List.cons_append, waiting, waiting, ih, List.any_append]
      simp only [List.any_cons, List.any_nil, Event.removes, Bool.or_false]
      split <;> rfl

theorem waiting_append_remove (es : List (Event τ)) (xs : List τ) :
    waiting key (es ++ [.remove xs]) = (waiting key es).filter (fun x => key x ∉ xs.map key) := by
  induction es with
  | nil => rfl
  | cons e es ih =>
    cases e with
    | remove ys => exact ih
    | accept y =>
      rw [List.cons_append, waiting, waiting, ih, List.any_append]
      have hlast : [Event.remove xs].any (Event.removes key (key y)) = decide (key y ∈ xs.map key) := by
        rw [List.any_cons, List.any_nil, Bool.or_false]
        rfl
      rw [hlast]
      by_cases hany : es.any (Event.removes key (key y)) = true
      · rw [hany, Bool.true_or]
        rfl
      · rw [Bool.not_eq_true] at hany
        rw [hany, Bool.false_or, if_neg Bool.false_ne_true, List.filter_cons]
        by_cases hy : key y ∈ xs.map key
        · simp [hy]
        · simp [hy]

end Append

/-- The pool after a history. -/
theorem run_eq (es : List (Event τ)) : run (step key) [] es = firstOfKey key (waiting key es) := by
  induction es using List.reverseRecOn with
  | nil => rfl
  | append_singleton es e ih =>
    rw [run_append, ih, run_cons, run_nil]
    cases e with
    | accept x =>
      rw [waiting_append_accept, firstOfKey_append_singleton, step]
      simp only [mem_keys_firstOfKey]
    | remove xs =>
      rw [waiting_append_remove]
      exact (firstOfKey_filter _ (fun k => decide (k ∉ xs.map key))).symm

/-- What is in the pool was there or has been accepted. -/
theorem mem_run {pool : List τ} {es : List (Event τ)} {x : τ} (h : x ∈ run (step key) pool es) :
    x ∈ pool ∨ .accept x ∈ es := by
  induction es generalizing pool with
  | nil => exact .inl h
  | cons e es ih =>
    rcases ih h with hstep | hes
    · cases e with
      | accept y =>
        rw [step] at hstep
        split at hstep
        · exact .inl hstep
        · rcases List.mem_append.mp hstep with hpool | hy
          · exact .inl hpool
          · rw [List.mem_singleton.mp hy]
            exact .inr List.mem_cons_self
      | remove xs => exact .inl (List.mem_filter.mp hstep).1
    · exact .inr (List.mem_cons_of_mem _ hes)

/-- What no batch takes out stays. -/
theorem mem_run_of_kept {pool : List τ} {es : List (Event τ)} {x : τ} (hx : x ∈ pool)
    (hkept : ¬ Removes key es (key x)) :
    x ∈ run (step key) pool es := by
  induction es generalizing pool with
  | nil => exact hx
  | cons e es ih =>
    refine ih ?_ (fun ⟨xs, hxs, hk⟩ => hkept ⟨xs, List.mem_cons_of_mem _ hxs, hk⟩)
    cases e with
    | accept y =>
      rw [step]
      split
      · exact hx
      · exact List.mem_append_left _ hx
    | remove xs =>
      refine List.mem_filter.mpr ⟨hx, decide_eq_true ?_⟩
      intro hk
      exact hkept ⟨xs, List.mem_cons_self, hk⟩

end Terpz.Lib.Pool
