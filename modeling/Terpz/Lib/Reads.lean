import Terpz.Lib.BigEndian

/-! Reads of a string at a position or over a range. A read outside the string stops the program. -/
namespace Terpz.Lib

inductive OutOfBounds where
  | outOfBounds
  deriving DecidableEq, Repr

abbrev Reads := Except OutOfBounds

namespace Reads
variable {α β : Type}

def index (b : List α) (i : Nat) : Reads α :=
  match b[i]? with
  | none => .error .outOfBounds
  | some x => .ok x

def sliceFrom (b : List α) (i : Nat) : Reads (List α) :=
  if i ≤ b.length then .ok (b.drop i) else .error .outOfBounds

def sliceTo (b : List α) (j : Nat) : Reads (List α) :=
  if j ≤ b.length then .ok (b.take j) else .error .outOfBounds

def slice (b : List α) (i j : Nat) : Reads (List α) :=
  if i ≤ j ∧ j ≤ b.length then .ok ((b.drop i).take (j - i)) else .error .outOfBounds

@[simp] theorem ok_bind (a : α) (f : α → Reads β) : (Except.ok a : Reads α) >>= f = f a := rfl

@[simp] theorem pure_eq (a : α) : (pure a : Reads α) = .ok a := rfl

@[simp] theorem index_zero_cons (x : α) (b : List α) : index (x :: b) 0 = .ok x := rfl

theorem index_eq {b : List α} {i : Nat} (d : α) (h : i < b.length) : index b i = .ok (b.getD i d) := by
  rw [index, List.getD_eq_getElem?_getD, List.getElem?_eq_getElem h]
  rfl

theorem sliceFrom_eq {b : List α} {i : Nat} (h : i ≤ b.length) : sliceFrom b i = .ok (b.drop i) := if_pos h

theorem sliceTo_eq {b : List α} {j : Nat} (h : j ≤ b.length) : sliceTo b j = .ok (b.take j) := if_pos h

theorem slice_eq {b : List α} {i j : Nat} (hij : i ≤ j) (hj : j ≤ b.length) :
    slice b i j = .ok ((b.drop i).take (j - i)) := if_pos ⟨hij, hj⟩

section Fixed
variable {α : Type} {width : Nat} {put : α → Bytes} {get : Bytes → Reads α} {b rest : Bytes} {i : Nat}

/-- Values of one width: what is written is read back, and every string of the width is written for some value. -/
structure Fixed (width : Nat) (put : α → Bytes) (get : Bytes → Reads α) : Prop where
  put_length : ∀ a, (put a).length = width
  get_put : ∀ a, get (put a) = .ok a
  put_surjective : ∀ w, w.length = width → ∃ a, put a = w

/-- Read the value at a position. -/
def getAt (width : Nat) (get : Bytes → Reads α) (b : Bytes) (i : Nat) : Reads α := slice b i (i + width) >>= get

theorem drop_add {f : Bytes} (h : b.drop i = f ++ rest) : b.drop (i + f.length) = rest := by
  rw [← List.drop_drop, h, List.drop_left]

theorem slice_of_drop {f : Bytes} (hi : i ≤ b.length) (h : b.drop i = f ++ rest) :
    slice b i (i + f.length) = .ok f := by
  have hlen := congrArg List.length h
  rw [List.length_drop, List.length_append] at hlen
  rw [slice_eq (by omega) (by omega), h, Nat.add_sub_cancel_left, List.take_left]

theorem index_of_drop {x : UInt8} (h : b.drop i = x :: rest) : index b i = .ok x := by
  have hx : b[i]? = some x := by
    rw [← Nat.add_zero i, ← List.getElem?_drop, h]
    rfl
  rw [index, hx]

namespace Fixed

/-- A value at a position is read there. -/
theorem getAt_put (hc : Fixed width put get) {a : α} (hi : i ≤ b.length) (h : b.drop i = put a ++ rest) :
    getAt width get b i = .ok a ∧ b.drop (i + width) = rest := by
  have hs := slice_of_drop hi h
  have hd := drop_add h
  rw [hc.put_length] at hs hd
  exact ⟨by rw [getAt, hs, ok_bind, hc.get_put], hd⟩

/-- Where enough bytes are left some value is read, and its bytes stand there. -/
theorem exists_getAt (hc : Fixed width put get) (h : i + width ≤ b.length) :
    ∃ a, getAt width get b i = .ok a ∧ b.drop i = put a ++ b.drop (i + width) := by
  have hlen : ((b.drop i).take width).length = width := by
    rw [List.length_take, List.length_drop]
    omega
  obtain ⟨a, ha⟩ := hc.put_surjective _ hlen
  have hdrop : b.drop i = put a ++ b.drop (i + width) := by
    rw [ha, ← List.drop_drop, List.take_append_drop]
  exact ⟨a, (hc.getAt_put (by omega) hdrop).1, hdrop⟩

end Fixed

/-- The loop over a counted list of values: how many are left, the cursor, and what was read. It stops with an error
where the string ends early. -/
def readItems {ε : Type} (truncated : ε) (width : Nat) (get : Bytes → Reads α) (b : Bytes) :
    Nat → Nat → List α → Reads (Except ε (Nat × List α))
  | 0, i, xs => .ok (.ok (i, xs))
  | n + 1, i, xs =>
    if i + width > b.length then .ok (.error truncated)
    else do
      let x ← getAt width get b i
      readItems truncated width get b n (i + width) (xs ++ [x])

variable {ε : Type} (truncated : ε)

/-- A written list is read back, and the cursor stands behind it. -/
theorem readItems_put (hc : Fixed width put get) {xs : List α} (hi : i ≤ b.length)
    (h : b.drop i = xs.flatMap put ++ rest) (acc : List α) :
    readItems truncated width get b xs.length i acc = .ok (.ok (i + xs.length * width, acc ++ xs)) ∧
      b.drop (i + xs.length * width) = rest ∧ i + xs.length * width ≤ b.length := by
  induction xs generalizing i acc with
  | nil =>
    rw [List.length_nil, Nat.zero_mul, Nat.add_zero]
    exact ⟨by rw [readItems, List.append_nil], h, hi⟩
  | cons x xs ih =>
    rw [List.flatMap_cons, List.append_assoc] at h
    obtain ⟨hget, hdrop⟩ := hc.getAt_put hi h
    have hfits : i + width ≤ b.length := by
      have hlen := congrArg List.length h
      rw [List.length_drop, List.length_append, hc.put_length] at hlen
      omega
    obtain ⟨hread, hrest, hle⟩ := ih hfits hdrop (acc ++ [x])
    have hend : i + (x :: xs).length * width = i + width + xs.length * width := by
      rw [List.length_cons, Nat.add_mul]
      omega
    rw [List.length_cons, readItems, if_neg (by omega), hget, ok_bind, hread, List.append_assoc]
    rw [List.length_cons] at hend
    exact ⟨by rw [hend]; rfl, by rw [hend]; exact hrest, by omega⟩

/-- On any string the loop ends with its error or with as many values as were counted, whose bytes stand there. -/
theorem readItems_cases (hc : Fixed width put get) (n : Nat) (hi : i ≤ b.length) (acc : List α) :
    readItems truncated width get b n i acc = .ok (.error truncated) ∨
    ∃ xs, xs.length = n ∧ readItems truncated width get b n i acc = .ok (.ok (i + n * width, acc ++ xs)) ∧
      b.drop i = xs.flatMap put ++ b.drop (i + n * width) ∧ i + n * width ≤ b.length := by
  induction n generalizing i acc with
  | zero =>
    refine .inr ⟨[], rfl, ?_, ?_, ?_⟩
    · rw [readItems, Nat.zero_mul, List.append_nil, Nat.add_zero]
    · rw [Nat.zero_mul, Nat.add_zero, List.flatMap_nil, List.nil_append]
    · rw [Nat.zero_mul]
      exact hi
  | succ n ih =>
    by_cases hshort : i + width > b.length
    · exact .inl (by rw [readItems, if_pos hshort])
    · obtain ⟨x, hget, hx⟩ := hc.exists_getAt (Nat.le_of_not_lt hshort)
      have hend : i + (n + 1) * width = i + width + n * width := by
        rw [Nat.add_mul]
        omega
      rw [readItems, if_neg hshort, hget, ok_bind]
      rcases ih (Nat.le_of_not_lt hshort) (acc ++ [x]) with herr | ⟨xs, hlen, hread, hxs, hle⟩
      · exact .inl herr
      · refine .inr ⟨x :: xs, by rw [List.length_cons, hlen], ?_, ?_, ?_⟩
        · rw [hread, hend, List.append_assoc]
          rfl
        · rw [hx, hxs, List.flatMap_cons, List.append_assoc, hend]
        · omega

end Fixed
end Reads

/-- What a pair of an encoder and a decoder promises: values that fit are read back, the bytes of a decoded
value stand in front of what was decoded, and the decoder as the program runs it stays inside the string. -/
structure WireFormat {α : Type} (fits : α → Prop) (encode : α → Bytes) (decode : Bytes → Option α)
    (reads : Bytes → Reads (Option α)) : Prop where
  decode_encode : ∀ a, fits a → decode (encode a) = some a
  encode_decode : ∀ {b a}, decode b = some a → encode a <+: b
  inBounds : ∀ b, reads b = .ok (decode b)

end Terpz.Lib
