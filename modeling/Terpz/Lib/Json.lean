import Mathlib.Data.Finset.Sort
import Terpz.Lib.Text

/-! JSON values as they are decoded: objects are value families over a finite set of keys. A value is part of another
when its keys, the start of its arrays and its scalars are found there; values without numbers are ordered by it. -/
namespace Terpz.Lib

/-- A number is the bit pattern of a double. -/
inductive Json where
  | null
  | bool (b : Bool)
  | number (bits : UInt64)
  | string (s : Text)
  | array (n : Nat) (elems : Fin n → Json)
  | object (keys : Finset Text) (vals : {k // k ∈ keys} → Json)

namespace Json

def NumberFree : Json → Prop
  | .null | .bool _ | .string _ => True
  | .number _ => False
  | .array _ elems => ∀ i, (elems i).NumberFree
  | .object _ vals => ∀ k, (vals k).NumberFree

/-- No number is part of anything. -/
inductive Part : Json → Json → Prop where
  | null : Part .null .null
  | bool (b : Bool) : Part (.bool b) (.bool b)
  | string (s : Text) : Part (.string s) (.string s)
  | array {n m : Nat} {xs : Fin n → Json} {ys : Fin m → Json} (le : n ≤ m)
      (elems : ∀ i, Part (xs i) (ys (i.castLE le))) : Part (.array n xs) (.array m ys)
  | object {keys keys' : Finset Text} {vals : {k // k ∈ keys} → Json} {vals' : {k // k ∈ keys'} → Json}
      (sub : keys ⊆ keys') (found : ∀ k, Part (vals k) (vals' ⟨k.1, sub k.2⟩)) :
      Part (.object keys vals) (.object keys' vals')

theorem NumberFree.part_self {a : Json} (h : a.NumberFree) : Part a a := by
  induction a with
  | null => exact .null
  | bool b => exact .bool b
  | number bits => exact h.elim
  | string s => exact .string s
  | array n elems ih => exact .array le_rfl (fun i => ih i (h i))
  | object keys vals ih => exact .object subset_rfl (fun k => ih k (h k))

theorem Part.trans {a b c : Json} (hab : Part a b) (hbc : Part b c) : Part a c := by
  induction hab generalizing c with
  | null => exact hbc
  | bool b => exact hbc
  | string s => exact hbc
  | array le _ ih =>
    cases hbc with
    | array le' elems' => exact .array (le.trans le') (fun i => ih i (elems' (i.castLE le)))
  | object sub _ ih =>
    cases hbc with
    | object sub' found' => exact .object (sub.trans sub') (fun k => ih k (found' ⟨k.1, sub k.2⟩))

theorem Part.antisymm {a b : Json} (hab : Part a b) (hba : Part b a) : a = b := by
  induction hab with
  | null => rfl
  | bool b => rfl
  | string s => rfl
  | array le _ ih =>
    cases hba with
    | array le' elems' =>
      obtain rfl := le_antisymm le le'
      exact congrArg _ (funext fun i => ih i (elems' i))
  | object sub _ ih =>
    cases hba with
    | object sub' found' =>
      obtain rfl := Finset.Subset.antisymm sub sub'
      exact congrArg _ (funext fun k => ih k (found' k))

end Json

/-- The bytewise order of texts. -/
def Text.Before (a b : Text) : Prop := (compare a b).isLE = true

instance : DecidableRel Text.Before := fun a b => inferInstanceAs (Decidable ((compare a b).isLE = true))

instance : IsTrans Text Text.Before := ⟨fun _ _ _ => Std.TransCmp.isLE_trans⟩

instance : Std.Total Text.Before := ⟨fun a b => by
  cases hab : (compare a b).isLE with
  | true => exact .inl hab
  | false => exact .inr (Std.OrientedCmp.isGE_iff_isLE.mp (by cases h : compare a b <;> simp_all))⟩

instance : Std.Antisymm Text.Before := ⟨fun _ _ hab hba =>
  Std.compare_eq_iff_eq.mp (Std.OrientedCmp.isLE_antisymm hab hba)⟩

/-- The keys of an object in ascending order. -/
def sortedKeys (keys : Finset Text) : List {k // k ∈ keys} :=
  (keys.sort Text.Before).attach.map (fun k => ⟨k.1, (Finset.mem_sort Text.Before).mp k.2⟩)

theorem mem_sortedKeys {keys : Finset Text} (k : {k // k ∈ keys}) : k ∈ sortedKeys keys := by
  unfold sortedKeys
  rw [List.mem_map]
  exact ⟨⟨k.1, (Finset.mem_sort Text.Before).mpr k.2⟩, List.mem_attach _ _, rfl⟩

end Terpz.Lib
