import Mathlib.Data.Nat.Bitwise
import Mathlib.Tactic.Ring

/-! Hash trees over a power of two of leaves, with the node hash left abstract. The opening of
any leaf climbs to the root, and equal roots over different leaves collide in a node. -/
namespace Terpz.Lib

/-- Lists with one image are equal, or two different entries at one place have one image. -/
theorem eq_or_collision_of_map_eq {α β : Type} {f : α → β} {l m : List α} (h : l.map f = m.map f) :
    l = m ∨ ∃ k : Nat, ∃ x y : α, l[k]? = some x ∧ m[k]? = some y ∧ x ≠ y ∧ f x = f y := by
  induction l generalizing m with
  | nil => exact .inl (List.map_eq_nil_iff.mp h.symm).symm
  | cons a l ih =>
    cases m with
    | nil => simp at h
    | cons b m =>
      obtain ⟨hab, hrest⟩ := List.cons.inj h
      by_cases he : a = b
      · rcases ih hrest with heq | ⟨k, x, y, hx, hy, hxy⟩
        · exact .inl (by rw [he, heq])
        · exact .inr ⟨k + 1, x, y, hx, hy, hxy⟩
      · exact .inr ⟨0, a, b, rfl, rfl, he, hab⟩

namespace PerfectTree

variable {δ : Type}

/-- The two children of every node one level up. -/
def children : List δ → List (δ × δ)
  | [] => []
  | [_] => []
  | l :: r :: rest => (l, r) :: children rest

theorem children_length (l : List δ) : (children l).length = l.length / 2 := by
  induction l using children.induct with
  | case1 => simp [children]
  | case2 a => simp [children]
  | case3 a b rest ih =>
    simp only [children, List.length_cons, ih]
    omega

theorem children_getElem? (l : List δ) (k : Nat) {a b : δ} (ha : l[2 * k]? = some a) (hb : l[2 * k + 1]? = some b) :
    (children l)[k]? = some (a, b) := by
  induction l using children.induct generalizing k with
  | case1 => simp at ha
  | case2 x => simp at hb
  | case3 x y rest ih =>
    cases k with
    | zero => simp_all [children]
    | succ k =>
      rw [children, List.getElem?_cons_succ]
      exact ih k (by simpa [Nat.mul_add] using ha) (by simpa [Nat.mul_add] using hb)

/-- An even level is its children, side by side. -/
theorem eq_of_children {l m : List δ} (hlen : l.length = m.length) (heven : l.length % 2 = 0)
    (h : children l = children m) : l = m := by
  induction l using children.induct generalizing m with
  | case1 => exact (List.length_eq_zero_iff.mp hlen.symm).symm
  | case2 a => simp at heven
  | case3 a b rest ih =>
    match m with
    | [] => simp at hlen
    | [_] => simp at hlen
    | c :: d :: rest' =>
      simp only [children, List.cons.injEq, Prod.mk.injEq] at h
      simp only [List.length_cons] at hlen heven
      rw [h.1.1, h.1.2, ih (by omega) (by omega) h.2]

section
variable (node : δ → δ → δ)

def parents (l : List δ) : List δ := (children l).map (fun c => node c.1 c.2)

/-- The levels from the leaves to the root; each level halves, so the number of leaves is fuel enough. -/
def layers : Nat → List δ → List (List δ)
  | 0, l => [l]
  | fuel + 1, l => if l.length > 1 then l :: layers fuel (parents node l) else [l]

/-- The pairs of every node above the leaves. -/
def nodes : Nat → List δ → List (δ × δ)
  | 0, _ => []
  | fuel + 1, l => if l.length > 1 then children l ++ nodes fuel (parents node l) else []

/-- The siblings on the way up from position `i`. -/
def siblings : List (List δ) → Nat → Option (List δ)
  | [], _ => some []
  | level :: rest, i => do
    let sib ← level[i ^^^ 1]?
    let path ← siblings rest (i / 2)
    some (sib :: path)

/-- The root reached from a node at position `i`. -/
def climb : δ → Nat → List δ → δ
  | cur, _, [] => cur
  | cur, i, sib :: path => climb (if i % 2 = 0 then node cur sib else node sib cur) (i / 2) path

end

section Opening
variable {node : δ → δ → δ}

theorem parents_length (l : List δ) : (parents node l).length = l.length / 2 := by
  rw [parents, List.length_map, children_length]

variable (node) in
theorem layers_ne_nil (fuel : Nat) (l : List δ) : layers node fuel l ≠ [] := by
  cases fuel with
  | zero => exact List.cons_ne_nil _ _
  | succ fuel =>
    unfold layers
    split <;> exact List.cons_ne_nil _ _

private theorem xor_one (i : Nat) : i ^^^ 1 = if i % 2 = 0 then i + 1 else i - 1 := by
  split
  · rename_i h
    exact Nat.xor_one_of_even (Nat.even_iff.mpr h)
  · rename_i h
    exact Nat.xor_one_of_odd (Nat.odd_iff.mpr (by omega))

variable (node) in
/-- A leaf and its sibling hash to their parent, on the side the position's parity says. -/
private theorem parent_of_leaf {l : List δ} {i : Nat} (heven : l.length % 2 = 0) {a : δ} (ha : l[i]? = some a) :
    ∃ sib, l[i ^^^ 1]? = some sib ∧
      (parents node l)[i / 2]? = some (if i % 2 = 0 then node a sib else node sib a) := by
  obtain ⟨hi, _⟩ := List.getElem?_eq_some_iff.mp ha
  rw [xor_one, parents, List.getElem?_map]
  by_cases hp : i % 2 = 0
  · obtain ⟨sib, hsib⟩ : ∃ sib, l[i + 1]? = some sib := ⟨_, List.getElem?_eq_getElem (by omega)⟩
    have hk : 2 * (i / 2) = i := by omega
    refine ⟨sib, by rw [if_pos hp, hsib], ?_⟩
    rw [children_getElem? l (i / 2) (hk.symm ▸ ha) (hk.symm ▸ hsib), if_pos hp]
    rfl
  · obtain ⟨sib, hsib⟩ : ∃ sib, l[i - 1]? = some sib := ⟨_, List.getElem?_eq_getElem (by omega)⟩
    have hk : 2 * (i / 2) + 1 = i := by omega
    have hk' : 2 * (i / 2) = i - 1 := by omega
    refine ⟨sib, by rw [if_neg hp, hsib], ?_⟩
    rw [children_getElem? l (i / 2) (hk'.symm ▸ hsib) (hk.symm ▸ ha), if_neg hp]
    rfl

variable (node) in
/-- Over `2 ^ d` leaves there is one root, and every leaf's siblings lead to it. -/
theorem opening {d fuel : Nat} (hf : d ≤ fuel) {l : List δ} (hl : l.length = 2 ^ d) :
    ∃ root, (layers node fuel l).getLast? = some [root] ∧ ∀ i a, l[i]? = some a →
      ∃ path, siblings (layers node fuel l).dropLast i = some path ∧ climb node a i path = root := by
  induction d generalizing fuel l with
  | zero =>
    obtain ⟨root, rfl⟩ := List.length_eq_one_iff.mp hl
    have hone : layers node fuel [root] = [[root]] := by cases fuel <;> simp [layers]
    refine ⟨root, by rw [hone]; rfl, ?_⟩
    intro i a ha
    obtain ⟨hi, rfl⟩ := List.getElem?_eq_some_iff.mp ha
    refine ⟨[], by rw [hone]; rfl, ?_⟩
    simp [climb]
  | succ d ih =>
    cases fuel with
    | zero => omega
    | succ fuel =>
      have hpow : 2 ^ (d + 1) = 2 * 2 ^ d := by ring
      have hpos : 0 < 2 ^ d := Nat.two_pow_pos d
      have hlen : (parents node l).length = 2 ^ d := by
        rw [parents_length]
        omega
      obtain ⟨root, hroot, hopen⟩ := ih (Nat.le_of_succ_le_succ hf) hlen
      have hne := layers_ne_nil node fuel (parents node l)
      rw [layers, if_pos (by omega)]
      refine ⟨root, by rw [List.getLast?_cons_of_ne_nil hne, hroot], ?_⟩
      intro i a ha
      obtain ⟨sib, hsib, hparent⟩ := parent_of_leaf node (by omega) ha
      obtain ⟨path, hpath, hclimb⟩ := hopen (i / 2) _ hparent
      rw [List.dropLast_cons_of_ne_nil hne]
      exact ⟨sib :: path, by simp only [siblings, hsib, hpath, Option.bind_eq_bind, Option.bind_some], hclimb⟩

/-- Equal roots over equally many leaves: the leaves are the same, or at some node two different
pairs have one hash. -/
theorem leaves_eq_or_collision {d fuel : Nat} (hf : d ≤ fuel) {l m : List δ} (hl : l.length = 2 ^ d)
    (hm : m.length = 2 ^ d) (h : (layers node fuel l).getLast? = (layers node fuel m).getLast?) :
    l = m ∨ ∃ k : Nat, ∃ x y : δ × δ, (nodes node fuel l)[k]? = some x ∧ (nodes node fuel m)[k]? = some y ∧ x ≠ y ∧
      node x.1 x.2 = node y.1 y.2 := by
  induction d generalizing fuel l m with
  | zero =>
    have hone (k : List δ) (hk : k.length = 2 ^ 0) : (layers node fuel k).getLast? = some k := by
      cases fuel <;> simp [layers, hk]
    rw [hone l hl, hone m hm] at h
    exact .inl (Option.some.inj h)
  | succ d ih =>
    cases fuel with
    | zero => omega
    | succ fuel =>
      have hpow : 2 ^ (d + 1) = 2 * 2 ^ d := by ring
      have hpos : 0 < 2 ^ d := Nat.two_pow_pos d
      have hbig (k : List δ) (hk : k.length = 2 ^ (d + 1)) : k.length > 1 := by omega
      have hlen (k : List δ) (hk : k.length = 2 ^ (d + 1)) : (children k).length = 2 ^ d := by
        rw [children_length]
        omega
      have hlen' (k : List δ) (hk : k.length = 2 ^ (d + 1)) : (parents node k).length = 2 ^ d := by
        rw [parents, List.length_map, hlen k hk]
      rw [layers, layers, if_pos (hbig l hl), if_pos (hbig m hm), List.getLast?_cons_of_ne_nil (layers_ne_nil _ _ _),
        List.getLast?_cons_of_ne_nil (layers_ne_nil _ _ _)] at h
      rw [nodes, nodes, if_pos (hbig l hl), if_pos (hbig m hm)]
      rcases ih (Nat.le_of_succ_le_succ hf) (hlen' l hl) (hlen' m hm) h with hpar | ⟨k, x, y, hx, hy, hxy⟩
      · rcases eq_or_collision_of_map_eq hpar with hch | ⟨k, x, y, hx, hy, hxy⟩
        · exact .inl (eq_of_children (by omega) (by omega) hch)
        · refine .inr ⟨k, x, y, ?_, ?_, hxy⟩
          · rw [List.getElem?_append_left (List.getElem?_eq_some_iff.mp hx).1, hx]
          · rw [List.getElem?_append_left (List.getElem?_eq_some_iff.mp hy).1, hy]
      · refine .inr ⟨2 ^ d + k, x, y, ?_, ?_, hxy⟩
        · rw [List.getElem?_append_right (by rw [hlen l hl]; omega), hlen l hl, Nat.add_sub_cancel_left, hx]
        · rw [List.getElem?_append_right (by rw [hlen m hm]; omega), hlen m hm, Nat.add_sub_cancel_left, hy]

end Opening
end PerfectTree
end Terpz.Lib
