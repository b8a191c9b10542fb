import Mathlib.Data.List.Basic
import Mathlib.Tactic.Common

/-! Binary hash trees in which an odd last node is paired with itself. The root does not fix
the number of leaves; it fixes every leaf up to repetitions at the end, unless two of the
strings hashed on the way collide. -/
namespace Terpz.Lib.DoublingTree

variable {α : Type}

/-- Two different strings, one from each list, with one hash. -/
def Collision (H : List α → List α) (xs ys : List (List α)) : Prop := ∃ x ∈ xs, ∃ y ∈ ys, x ≠ y ∧ H x = H y

theorem Collision.mono {H : List α → List α} {xs ys xs' ys' : List (List α)} (h : Collision H xs ys)
    (hx : xs ⊆ xs') (hy : ys ⊆ ys') : Collision H xs' ys' := by
  obtain ⟨x, hxs, y, hys, hne, he⟩ := h
  exact ⟨x, hx hxs, y, hy hys, hne, he⟩

/-- Equal hashes come from one string or are a collision. -/
theorem eq_or_collision {H : List α → List α} {xs ys : List (List α)} {x y : List α} (hx : x ∈ xs) (hy : y ∈ ys)
    (h : H x = H y) : x = y ∨ Collision H xs ys := by
  by_cases he : x = y
  · exact .inl he
  · exact .inr ⟨x, hx, y, hy, he, h⟩

/-- The strings hashed to get from one level to the next. -/
def pairs : List (List α) → List (List α)
  | [] => []
  | [a] => [a ++ a]
  | a :: b :: rest => (a ++ b) :: pairs rest

theorem pairs_getElem? (nodes : List (List α)) (k : Nat) :
    (pairs nodes)[k]? = nodes[2 * k]?.map (fun a => a ++ nodes[2 * k + 1]?.getD a) := by
  induction nodes using pairs.induct generalizing k with
  | case1 => simp [pairs]
  | case2 a => cases k <;> simp [pairs]
  | case3 a b rest ih =>
    cases k with
    | zero => simp [pairs]
    | succ k => simp [pairs, ih, Nat.mul_add]

theorem pairs_length (nodes : List (List α)) : (pairs nodes).length = (nodes.length + 1) / 2 := by
  induction nodes using pairs.induct with
  | case1 => simp [pairs]
  | case2 a => simp [pairs]
  | case3 a b rest ih =>
    simp only [pairs, List.length_cons, ih]
    omega

/-- A hashed string starts with a node and ends with a node. -/
theorem mem_pairs {nodes : List (List α)} {x : List α} (hx : x ∈ pairs nodes) :
    ∃ a ∈ nodes, ∃ b ∈ nodes, x = a ++ b := by
  induction nodes using pairs.induct with
  | case1 => cases hx
  | case2 a => exact ⟨a, List.mem_cons_self, a, List.mem_cons_self, List.mem_singleton.mp hx⟩
  | case3 a b rest ih =>
    rcases List.mem_cons.mp hx with rfl | hx
    · exact ⟨a, List.mem_cons_self, b, List.mem_cons_of_mem _ List.mem_cons_self, rfl⟩
    · obtain ⟨u, hu, v, hv, he⟩ := ih hx
      exact ⟨u, List.mem_cons_of_mem _ (List.mem_cons_of_mem _ hu), v,
        List.mem_cons_of_mem _ (List.mem_cons_of_mem _ hv), he⟩

/-- Wherever the second list has an entry, the first has the same one there, or has ended and
holds it elsewhere. -/
def Mirrors (l m : List (List α)) : Prop :=
  ∀ j b, m[j]? = some b → l[j]? = some b ∨ (l.length ≤ j ∧ b ∈ l)

theorem Mirrors.eq_of_length {l m : List (List α)} (h : Mirrors l m) (hlen : l.length = m.length) : l = m := by
  apply List.ext_getElem?
  intro j
  cases hb : m[j]? with
  | none => exact List.getElem?_eq_none (hlen ▸ List.getElem?_eq_none_iff.mp hb)
  | some b =>
    rcases h j b hb with h | ⟨hle, _⟩
    · exact h
    · obtain ⟨hj, _⟩ := List.getElem?_eq_some_iff.mp hb
      omega

section
variable (H : List α → List α)

def level (nodes : List (List α)) : List (List α) := (pairs nodes).map H

/-- The levels shrink strictly, so the number of nodes is enough fuel. -/
def root : Nat → List (List α) → List α
  | 0, nodes => nodes.headD []
  | fuel + 1, nodes => if nodes.length > 1 then root fuel (level H nodes) else nodes.headD []

/-- Every string hashed above the given nodes. -/
def inputs : Nat → List (List α) → List (List α)
  | 0, _ => []
  | fuel + 1, nodes => if nodes.length > 1 then pairs nodes ++ inputs fuel (level H nodes) else []

/-- The root over the hashes of the leaves; no leaves have the hash of nothing. -/
def treeRoot (leaves : List (List α)) : List α :=
  if leaves.length = 0 then H [] else root H leaves.length (leaves.map H)

/-- Every string hashed to get the root. -/
def treeInputs (leaves : List (List α)) : List (List α) :=
  if leaves.length = 0 then [[]] else leaves ++ inputs H leaves.length (leaves.map H)

end

section Binding
variable {H : List α → List α} {d : Nat} (hH : ∀ x, (H x).length = d)
include hH

private theorem level_digests (nodes : List (List α)) : ∀ a ∈ level H nodes, a.length = d := by
  intro a ha
  obtain ⟨x, _, rfl⟩ := List.mem_map.mp ha
  exact hH x

omit hH in
private theorem mem_inputs_half {fuel : Nat} {nodes : List (List α)} {y : List α} (hy : y ∈ inputs H fuel nodes) :
    ∃ u v, y = u ++ v ∧ (u ∈ nodes ∨ ∃ x ∈ inputs H fuel nodes, u = H x) := by
  induction fuel generalizing nodes with
  | zero => cases hy
  | succ fuel ih =>
    unfold inputs at hy ⊢
    split at hy
    · rename_i hlen
      simp only [if_pos hlen]
      rcases List.mem_append.mp hy with hy | hy
      · obtain ⟨u, hu, v, _, rfl⟩ := mem_pairs hy
        exact ⟨u, v, rfl, .inl hu⟩
      · obtain ⟨u, v, rfl, hu | ⟨x, hx, rfl⟩⟩ := ih hy
        · obtain ⟨x, hx, rfl⟩ := List.mem_map.mp hu
          exact ⟨_, v, rfl, .inr ⟨x, List.mem_append_left _ hx, rfl⟩⟩
        · exact ⟨_, v, rfl, .inr ⟨x, List.mem_append_right _ hx, rfl⟩⟩
    · cases hy

omit hH in
/-- A root above more than one node is a hash. -/
private theorem root_eq_hash {fuel : Nat} {nodes : List (List α)} (hlen : nodes.length > 1) (hf : nodes.length ≤ fuel) :
    ∃ y ∈ inputs H fuel nodes, root H fuel nodes = H y := by
  induction fuel generalizing nodes with
  | zero => omega
  | succ fuel ih =>
    unfold inputs root
    simp only [if_pos hlen]
    have hl : (level H nodes).length = (nodes.length + 1) / 2 := by rw [level, List.length_map, pairs_length]
    by_cases hone : (level H nodes).length > 1
    · obtain ⟨y, hy, he⟩ := ih hone (by omega)
      exact ⟨y, List.mem_append_right _ hy, he⟩
    · -- two nodes: the next level is the root itself
      match nodes, hlen with
      | [a, b], _ =>
        refine ⟨a ++ b, List.mem_append_left _ (by simp [pairs]), ?_⟩
        cases fuel <;> simp [root, level, pairs]
      | _ :: _ :: _ :: _, _ =>
        simp only [List.length_cons] at hl
        omega

omit hH in
/-- One level down: lists whose next levels mirror each other mirror each other. -/
private theorem mirrors_of_level {l m : List (List α)} (hl : ∀ a ∈ l, a.length = d) (hm : ∀ b ∈ m, b.length = d)
    (h : Mirrors (level H l) (level H m)) : Mirrors l m ∨ Collision H (pairs l) (pairs m) := by
  by_cases hcol : Collision H (pairs l) (pairs m)
  · exact .inr hcol
  refine .inl ?_
  intro j b hb
  have hk : 2 * (j / 2) = j ∨ 2 * (j / 2) + 1 = j := by omega
  -- the string that `b` is hashed in
  obtain ⟨x, hx⟩ : ∃ x, m[2 * (j / 2)]? = some x := by
    obtain ⟨hj, _⟩ := List.getElem?_eq_some_iff.mp hb
    exact ⟨_, List.getElem?_eq_getElem (by omega)⟩
  generalize hy : m[2 * (j / 2) + 1]?.getD x = y
  have hpm : (pairs m)[j / 2]? = some (x ++ y) := by rw [pairs_getElem?, hx, Option.map_some, hy]
  have hbxy : (2 * (j / 2) = j ∧ b = x) ∨ (2 * (j / 2) + 1 = j ∧ b = y) := by
    rcases hk with hk | hk
    · rw [hk, hb] at hx
      exact .inl ⟨hk, Option.some.inj hx⟩
    · rw [hk, hb] at hy
      exact .inr ⟨hk, hy⟩
  -- the same string occurs on the other side
  have hsame (u v : List α) (k : Nat) (hu : l[2 * k]? = some u) (hv : l[2 * k + 1]?.getD u = v)
      (he : H (u ++ v) = H (x ++ y)) : u = x ∧ v = y := by
    have hpl : (pairs l)[k]? = some (u ++ v) := by rw [pairs_getElem?, hu, Option.map_some, hv]
    rcases eq_or_collision (List.mem_of_getElem? hpl) (List.mem_of_getElem? hpm) he with he | he
    · have hux : u.length = x.length := by
        rw [hl u (List.mem_of_getElem? hu), hm x (List.mem_of_getElem? hx)]
      exact List.append_inj he hux
    · exact absurd he hcol
  have hlen : (level H l).length = (l.length + 1) / 2 := by rw [level, List.length_map, pairs_length]
  rcases h (j / 2) (H (x ++ y)) (by rw [level, List.getElem?_map, hpm]; rfl) with hat | ⟨hle, hmem⟩
  · rw [level, List.getElem?_map, pairs_getElem?] at hat
    cases hu : l[2 * (j / 2)]? with
    | none => simp [hu] at hat
    | some u =>
      rw [hu, Option.map_some, Option.map_some, Option.some_inj] at hat
      obtain ⟨rfl, hv⟩ := hsame u _ _ hu rfl hat
      rcases hbxy with ⟨hk, rfl⟩ | ⟨hk, rfl⟩
      · exact .inl (hk ▸ hu)
      · cases hv' : l[2 * (j / 2) + 1]? with
        | some v =>
          rw [hv', Option.getD_some] at hv
          exact .inl (by rw [← hk, hv', hv])
        | none =>
          rw [hv', Option.getD_none] at hv
          have hle := List.getElem?_eq_none_iff.mp hv'
          exact .inr ⟨by omega, hv ▸ List.mem_of_getElem? hu⟩
  · refine .inr ⟨by omega, ?_⟩
    obtain ⟨z, hz, he⟩ := List.mem_map.mp hmem
    obtain ⟨k, hk⟩ := List.mem_iff_getElem?.mp hz
    rw [pairs_getElem?] at hk
    cases hu : l[2 * k]? with
    | none => simp [hu] at hk
    | some u =>
      rw [hu, Option.map_some, Option.some_inj] at hk
      subst hk
      obtain ⟨rfl, hv⟩ := hsame u _ k hu rfl he
      rcases hbxy with ⟨_, rfl⟩ | ⟨_, rfl⟩
      · exact List.mem_of_getElem? hu
      · rw [← hv]
        cases hv' : l[2 * k + 1]? with
        | some v => exact List.mem_of_getElem? hv'
        | none => exact List.mem_of_getElem? hu

/-- A string hashed right above one tree's nodes and further up in the other starts with a node
of the first that is a hash of the second. -/
private theorem node_is_digest {g : Nat} {l m : List (List α)} (hl : ∀ a ∈ l, a.length = d) {x : List α}
    (hx : x ∈ pairs l) (hy : x ∈ inputs H g (level H m)) :
    ∃ a ∈ l, ∃ y ∈ pairs m ++ inputs H g (level H m), a = H y := by
  obtain ⟨p, hp, q, _, hpq⟩ := mem_pairs hx
  obtain ⟨u, v, huv, hu⟩ := mem_inputs_half hy
  have hdig : ∃ z ∈ pairs m ++ inputs H g (level H m), u = H z := by
    rcases hu with hu | ⟨z, hz, rfl⟩
    · obtain ⟨z, hz, rfl⟩ := List.mem_map.mp hu
      exact ⟨z, List.mem_append_left _ hz, rfl⟩
    · exact ⟨z, List.mem_append_right _ hz, rfl⟩
  obtain ⟨z, hz, rfl⟩ := hdig
  exact ⟨p, hp, z, hz, (List.append_inj (hpq.symm.trans huv) (by rw [hl p hp, hH])).1⟩

omit hH in
private theorem root_singleton (fuel : Nat) (a : List α) : root H fuel [a] = a := by
  cases fuel <;> simp [root]

omit hH in
private theorem singleton_of_not_gt {l : List (List α)} (hne : l ≠ []) (h : ¬ l.length > 1) : ∃ a, l = [a] := by
  have hpos := List.length_pos_iff.mpr hne
  exact List.length_eq_one_iff.mp (by omega)

/-- What equal roots say about the nodes below them: they mirror each other, or a node of one
tree is a hash inside the other, or two hashed strings collide. -/
private theorem root_cases {f g : Nat} {l m : List (List α)} (hl0 : l ≠ []) (hm0 : m ≠ []) (hf : l.length ≤ f)
    (hg : m.length ≤ g) (hl : ∀ a ∈ l, a.length = d) (hm : ∀ b ∈ m, b.length = d) (h : root H f l = root H g m) :
    Mirrors l m ∨ (∃ a ∈ l, ∃ y ∈ inputs H g m, a = H y) ∨ (∃ b ∈ m, ∃ x ∈ inputs H f l, b = H x) ∨
      Collision H (inputs H f l) (inputs H g m) := by
  induction f generalizing g l m with
  | zero => exact absurd (List.length_eq_zero_iff.mp (Nat.le_zero.mp hf)) hl0
  | succ f ih =>
    by_cases hl1 : l.length > 1
    · by_cases hm1 : m.length > 1
      · cases g with
        | zero => omega
        | succ g =>
          have hll : (level H l).length = (l.length + 1) / 2 := by rw [level, List.length_map, pairs_length]
          have hml : (level H m).length = (m.length + 1) / 2 := by rw [level, List.length_map, pairs_length]
          have hlne : level H l ≠ [] := List.length_pos_iff.mp (by omega)
          have hmne : level H m ≠ [] := List.length_pos_iff.mp (by omega)
          rw [root, root, if_pos hl1, if_pos hm1] at h
          simp only [inputs, if_pos hl1, if_pos hm1]
          rcases ih hlne hmne (by omega) (by omega) (level_digests hH l) (level_digests hH m) h with
            hmir | ⟨a, ha, y, hy, he⟩ | ⟨b, hb, x, hx, he⟩ | hcol
          · rcases mirrors_of_level hl hm hmir with hmir | hcol
            · exact .inl hmir
            · exact .inr (.inr (.inr (hcol.mono (List.subset_append_left _ _) (List.subset_append_left _ _))))
          · obtain ⟨x, hx, rfl⟩ := List.mem_map.mp ha
            rcases eq_or_collision (List.mem_append_left (inputs H f (level H l)) hx)
              (List.mem_append_right (pairs m) hy) he with rfl | hcol
            · exact .inr (.inl (node_is_digest hH hl hx hy))
            · exact .inr (.inr (.inr hcol))
          · obtain ⟨y, hy, rfl⟩ := List.mem_map.mp hb
            rcases eq_or_collision (List.mem_append_right (pairs l) hx)
              (List.mem_append_left (inputs H g (level H m)) hy) he.symm with rfl | hcol
            · exact .inr (.inr (.inl (node_is_digest hH hm hy hx)))
            · exact .inr (.inr (.inr hcol))
          · exact .inr (.inr (.inr (hcol.mono (List.subset_append_right _ _) (List.subset_append_right _ _))))
      · obtain ⟨x, hx, he⟩ := root_eq_hash hl1 hf
        obtain ⟨b, rfl⟩ := singleton_of_not_gt hm0 hm1
        rw [he, root_singleton] at h
        exact .inr (.inr (.inl ⟨b, List.mem_cons_self, x, hx, h.symm⟩))
    · obtain ⟨a, rfl⟩ := singleton_of_not_gt hl0 hl1
      rw [root_singleton] at h
      by_cases hm1 : m.length > 1
      · obtain ⟨y, hy, he⟩ := root_eq_hash hm1 hg
        exact .inr (.inl ⟨a, List.mem_cons_self, y, hy, h.trans he⟩)
      · obtain ⟨b, rfl⟩ := singleton_of_not_gt hm0 hm1
        rw [root_singleton] at h
        subst h
        exact .inl (fun j c hc => .inl hc)

/-- Every string hashed above digests is two digests long. -/
private theorem inputs_length {fuel : Nat} {nodes : List (List α)}
    (hn : ∀ a ∈ nodes, a.length = d) {y : List α} (hy : y ∈ inputs H fuel nodes) : y.length = 2 * d := by
  induction fuel generalizing nodes with
  | zero => cases hy
  | succ fuel ih =>
    unfold inputs at hy
    split at hy
    · rcases List.mem_append.mp hy with hy | hy
      · obtain ⟨u, hu, v, hv, rfl⟩ := mem_pairs hy
        rw [List.length_append, hn u hu, hn v hv]
        omega
      · exact ih (level_digests hH nodes) hy
    · cases hy

section Leaves
variable {e : Nat} (he : e ≠ 2 * d) {P Q : List (List α)} (hP : ∀ p ∈ P, p.length = e) (hQ : ∀ q ∈ Q, q.length = e)
include he hP hQ

/-- Leaves of one length that is not two digests are fixed by the root up to repetitions. -/
private theorem leaves_mirror (hP0 : P ≠ []) (hQ0 : Q ≠ [])
    (h : root H P.length (P.map H) = root H Q.length (Q.map H)) :
    Mirrors P Q ∨ Collision H (P ++ inputs H P.length (P.map H)) (Q ++ inputs H Q.length (Q.map H)) := by
  have hdig (R : List (List α)) : ∀ a ∈ R.map H, a.length = d := by
    intro a ha
    obtain ⟨x, _, rfl⟩ := List.mem_map.mp ha
    exact hH x
  have hleaf {R S : List (List α)} (hR : ∀ p ∈ R, p.length = e) (hS : ∀ q ∈ S, q.length = e) {p y : List α} (hp : p ∈ R)
      (hy : y ∈ inputs H S.length (S.map H)) : p ≠ y := by
    rintro rfl
    exact he ((hR p hp).symm.trans (inputs_length hH (hdig S) hy))
  rcases root_cases hH (by simpa using hP0) (by simpa using hQ0) (by simp) (by simp) (hdig P) (hdig Q) h with
    hmir | ⟨a, ha, y, hy, hay⟩ | ⟨b, hb, x, hx, hbx⟩ | hcol
  · by_cases hcol : Collision H P Q
    · exact .inr (hcol.mono (List.subset_append_left _ _) (List.subset_append_left _ _))
    · refine .inl ?_
      intro j q hq
      rcases hmir j (H q) (by rw [List.getElem?_map, hq]; rfl) with hat | ⟨hle, hmem⟩
      · rw [List.getElem?_map] at hat
        obtain ⟨p, hp, hpq⟩ := Option.map_eq_some_iff.mp hat
        rcases eq_or_collision (List.mem_of_getElem? hp) (List.mem_of_getElem? hq) hpq with rfl | h
        · exact .inl hp
        · exact absurd h hcol
      · obtain ⟨p, hp, hpq⟩ := List.mem_map.mp hmem
        rcases eq_or_collision hp (List.mem_of_getElem? hq) hpq with rfl | h
        · exact .inr ⟨by simpa using hle, hp⟩
        · exact absurd h hcol
  · obtain ⟨p, hp, rfl⟩ := List.mem_map.mp ha
    exact .inr ⟨p, List.mem_append_left _ hp, y, List.mem_append_right _ hy, hleaf hP hQ hp hy, hay⟩
  · obtain ⟨q, hq, rfl⟩ := List.mem_map.mp hb
    exact .inr ⟨x, List.mem_append_right _ hx, q, List.mem_append_left _ hq, (hleaf hQ hP hq hx).symm, hbx.symm⟩
  · exact .inr (hcol.mono (List.subset_append_right _ _) (List.subset_append_right _ _))

omit hH he hP hQ in
/-- The root over some leaves is the hash of a leaf or of a pair. -/
private theorem root_leaves_eq_hash (hQ0 : Q ≠ []) :
    ∃ y ∈ Q ++ inputs H Q.length (Q.map H), root H Q.length (Q.map H) = H y := by
  by_cases h1 : (Q.map H).length > 1
  · obtain ⟨y, hy, hroot⟩ := root_eq_hash h1 (by simp : (Q.map H).length ≤ Q.length)
    exact ⟨y, List.mem_append_right _ hy, hroot⟩
  · obtain ⟨q, rfl⟩ := singleton_of_not_gt hQ0 (by simpa using h1)
    exact ⟨q, List.mem_append_left _ List.mem_cons_self, root_singleton _ _⟩

omit he hP in
private theorem empty_collides (he0 : 0 < e) (hd0 : 0 < d) (hQ0 : Q ≠ []) (h : H [] = root H Q.length (Q.map H)) :
    Collision H [[]] (Q ++ inputs H Q.length (Q.map H)) := by
  obtain ⟨y, hy, hroot⟩ := root_leaves_eq_hash hQ0
  refine ⟨[], List.mem_cons_self, y, hy, ?_, h.trans hroot⟩
  rintro rfl
  rcases List.mem_append.mp hy with hy | hy
  · have := hQ [] hy
    simp only [List.length_nil] at this
    omega
  · have hdig : ∀ a ∈ Q.map H, a.length = d := by
      intro a ha
      obtain ⟨x, _, rfl⟩ := List.mem_map.mp ha
      exact hH x
    have := inputs_length hH hdig hy
    simp only [List.length_nil] at this
    omega

/-- Equal roots: the leaves mirror each other in both directions, or two of the strings hashed in
the two trees collide. -/
theorem treeRoot_binds (he0 : 0 < e) (hd0 : 0 < d) (h : treeRoot H P = treeRoot H Q) :
    (Mirrors P Q ∧ Mirrors Q P) ∨ Collision H (treeInputs H P) (treeInputs H Q) := by
  have hswap {xs ys : List (List α)} (hcol : Collision H ys xs) : Collision H xs ys := by
    obtain ⟨x, hx, y, hy, hne, hxy⟩ := hcol
    exact ⟨y, hy, x, hx, hne.symm, hxy.symm⟩
  unfold treeRoot at h
  unfold treeInputs
  by_cases hP0 : P = []
  · by_cases hQ0 : Q = []
    · subst hP0 hQ0
      exact .inl ⟨fun _ _ hb => .inl hb, fun _ _ hb => .inl hb⟩
    · have hQl : ¬ Q.length = 0 := fun hl => hQ0 (List.length_eq_zero_iff.mp hl)
      rw [if_pos (by rw [hP0]; rfl), if_neg hQl] at h ⊢
      exact .inr (empty_collides hH hQ he0 hd0 hQ0 h)
  · have hPl : ¬ P.length = 0 := fun hl => hP0 (List.length_eq_zero_iff.mp hl)
    by_cases hQ0 : Q = []
    · rw [if_neg hPl, if_pos (by rw [hQ0]; rfl)] at h ⊢
      exact .inr (hswap (empty_collides hH hP he0 hd0 hP0 h.symm))
    · have hQl : ¬ Q.length = 0 := fun hl => hQ0 (List.length_eq_zero_iff.mp hl)
      rw [if_neg hPl, if_neg hQl] at h ⊢
      rcases leaves_mirror hH he hP hQ hP0 hQ0 h with hPQ | hcol
      · rcases leaves_mirror hH he hQ hP hQ0 hP0 h.symm with hQP | hcol
        · exact .inl ⟨hPQ, hQP⟩
        · exact .inr (hswap hcol)
      · exact .inr hcol

end Leaves
end Binding

end Terpz.Lib.DoublingTree
