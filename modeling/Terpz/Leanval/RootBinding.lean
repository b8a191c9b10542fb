import Terpz.Lib.DoublingTree
import Terpz.Leanval.ObjectRoots

/-! What the three object roots commit to. The deposit tree fixes its own size, because a leaf
holds its number; the balance tree does not, and borrows it. -/
namespace Terpz.Leanval.Keeper
open Lib Lib.BigEndian Lib.DoublingTree

/-- What the deposit leaves are hashes of. -/
def depositStrings (st : Store) : List Bytes :=
  (indices (nextDepositIndex st)).map (fun i => subjectByIndex st i ++ putU32 i)

/-- What the balance leaves are hashes of. -/
def ebStrings (st : Store) : List Bytes := (indices (nextDepositIndex st)).map (fun i => [ebOf st i])

/-- Every string that is hashed to get the three roots of a store. -/
def hashedStrings (st : Store) : List Bytes :=
  bitfield st :: (treeInputs sha256 (depositStrings st) ++ treeInputs sha256 (ebStrings st))

def subjectsByIndex (st : Store) : List Bytes := (indices (nextDepositIndex st)).map (subjectByIndex st)

def ebBytes (st : Store) : List UInt8 := (indices (nextDepositIndex st)).map (ebOf st)

private theorem merkleLayer_eq (layer : List Bytes) : merkleLayer layer = level sha256 layer := by
  induction layer using merkleLayer.induct with
  | case1 => rfl
  | case2 a => rfl
  | case3 a b rest ih =>
    rw [merkleLayer, ih]
    rfl

private theorem merkleFold_eq (fuel : Nat) (layer : List Bytes) : merkleFold fuel layer = root sha256 fuel layer := by
  induction fuel generalizing layer with
  | zero => rfl
  | succ fuel ih => rw [merkleFold, DoublingTree.root, ih, merkleLayer_eq]

/-- The keeper's tree over hashed leaves is the doubling tree over the leaves. -/
theorem merkleRoot_map (strings : List Bytes) : merkleRoot (strings.map sha256) = treeRoot sha256 strings := by
  rw [merkleRoot, treeRoot, merkleFold_eq, List.length_map]
  rfl

theorem depositTreeRoot_eq (st : Store) : depositTreeRoot st = treeRoot sha256 (depositStrings st) := by
  rw [← merkleRoot_map, depositTreeRoot, depositLeaves, depositStrings, List.map_map]
  rfl

theorem ebTreeRoot_eq (st : Store) : ebTreeRoot st = treeRoot sha256 (ebStrings st) := by
  rw [← merkleRoot_map, ebTreeRoot, ebLeaves, ebStrings, List.map_map]
  rfl

section Tables
variable {st st' : Store}

theorem indices_length (n : UInt32) : (indices n).length = n.toNat := by simp [indices]

private theorem tableEntry {β : Type} (f : UInt32 → β) {n : UInt32} {j : Nat} {b : β}
    (h : ((indices n).map f)[j]? = some b) : j < n.toNat ∧ b = f (UInt32.ofNat j) := by
  obtain ⟨hj, he⟩ := List.getElem?_eq_some_iff.mp h
  rw [List.length_map, indices_length] at hj
  exact ⟨hj, by simpa [indices] using he.symm⟩

theorem mem_indices {n i : UInt32} (hi : i < n) : i ∈ indices n := List.mem_of_getElem? (indices_getElem? hi)

theorem Numbered.subjects_length (hn : Numbered st) (h : ∀ s ∈ subjectsByIndex st, s.length = 32) :
    ∀ s i, depositIndexOf st s = some i → s.length = 32 := by
  intro s i hi
  obtain ⟨hlt, rfl⟩ := (hn.inverse s i).mp hi
  exact h _ (List.mem_map_of_mem (mem_indices hlt))

private theorem subject_length (hn : Numbered st) (hkeys : ∀ s i, depositIndexOf st s = some i → s.length = 32)
    {i : UInt32} (hi : i < nextDepositIndex st) : (subjectByIndex st i).length = 32 :=
  hkeys _ i ((hn.inverse _ i).mpr ⟨hi, rfl⟩)

private theorem depositStrings_length (hn : Numbered st) (hkeys : ∀ s i, depositIndexOf st s = some i → s.length = 32) :
    ∀ p ∈ depositStrings st, p.length = 36 := by
  intro p hp
  obtain ⟨i, hi, rfl⟩ := List.mem_map.mp hp
  obtain ⟨j, hj, rfl⟩ := List.mem_map.mp hi
  have hlt : UInt32.ofNat j < nextDepositIndex st := by
    have := List.mem_range.mp hj
    have hmax := (nextDepositIndex st).toNat_lt
    rw [UInt32.lt_iff_toNat_lt, UInt32.toNat_ofNat', Nat.mod_eq_of_lt (by omega)]
    exact this
  rw [List.length_append, subject_length hn hkeys hlt, putU32_length]

private theorem ofNat_inj_of_lt {n : UInt32} {i j : Nat} (hi : i < n.toNat) (hj : j < 2 ^ 32)
    (h : UInt32.ofNat i = UInt32.ofNat j) : i = j := by
  have hmax := n.toNat_lt
  have := congrArg UInt32.toNat h
  rwa [UInt32.toNat_ofNat', UInt32.toNat_ofNat', Nat.mod_eq_of_lt (by omega), Nat.mod_eq_of_lt (by omega)] at this

variable (hn : Numbered st) (hn' : Numbered st') (hkeys : ∀ s i, depositIndexOf st s = some i → s.length = 32)
  (hkeys' : ∀ s i, depositIndexOf st' s = some i → s.length = 32)
include hn hn' hkeys hkeys'

/-- No deposit leaf repeats, so a tree that mirrors another is no shorter. -/
private theorem size_le (hmir : DoublingTree.Mirrors (depositStrings st) (depositStrings st')) :
    (nextDepositIndex st').toNat ≤ (nextDepositIndex st).toNat := by
  by_contra hlt
  have hlen : (depositStrings st).length = (nextDepositIndex st).toNat := by
    rw [depositStrings, List.length_map, indices_length]
  have hlen' : (depositStrings st').length = (nextDepositIndex st').toNat := by
    rw [depositStrings, List.length_map, indices_length]
  -- the first leaf beyond the shorter tree carries a number the shorter tree does not have
  obtain ⟨b, hb⟩ : ∃ b, (depositStrings st')[(nextDepositIndex st).toNat]? = some b :=
    ⟨_, List.getElem?_eq_getElem (by omega)⟩
  rcases hmir _ b hb with hat | ⟨_, hmem⟩
  · have := (List.getElem?_eq_some_iff.mp hat).1
    omega
  · obtain ⟨j, hj⟩ := List.mem_iff_getElem?.mp hmem
    have hbl := depositStrings_length hn hkeys b hmem
    obtain ⟨hjlt, rfl⟩ := tableEntry _ hj
    obtain ⟨hilt, he⟩ := tableEntry _ hb
    have hlt' : UInt32.ofNat (nextDepositIndex st).toNat < nextDepositIndex st' := by
      rw [UInt32.ofNat_toNat, UInt32.lt_iff_toNat_lt]
      exact hilt
    rw [List.length_append, putU32_length] at hbl
    have hsl := subject_length hn' hkeys' hlt'
    have hword := putU32_inj (List.append_inj he (by omega)).2
    have := ofNat_inj_of_lt hjlt (nextDepositIndex st).toNat_lt hword
    omega

end Tables

private theorem subjects_eq_of_strings {st st' : Store} (hnext : nextDepositIndex st = nextDepositIndex st')
    (h : depositStrings st = depositStrings st') : subjectsByIndex st = subjectsByIndex st' := by
  rw [depositStrings, depositStrings, ← hnext, List.map_inj_left] at h
  rw [subjectsByIndex, subjectsByIndex, ← hnext, List.map_inj_left]
  intro i hi
  exact List.append_cancel_right (h i hi)

private theorem bytes_eq_of_strings {st st' : Store} (hnext : nextDepositIndex st = nextDepositIndex st')
    (h : ebStrings st = ebStrings st') : ebBytes st = ebBytes st' := by
  rw [ebStrings, ebStrings, ← hnext, List.map_inj_left] at h
  rw [ebBytes, ebBytes, ← hnext, List.map_inj_left]
  intro i hi
  exact List.singleton_inj.mp (h i hi)

/-- Two numbered stores of 32-byte subjects with the same three roots have the same bitfield, the
same subjects and the same balances by deposit index, or two different strings that were hashed
for these roots have one SHA-256 hash. -/
theorem object_roots_commit {st st' : Store} (hn : Numbered st) (hn' : Numbered st')
    (hkeys : ∀ s i, depositIndexOf st s = some i → s.length = 32)
    (hkeys' : ∀ s i, depositIndexOf st' s = some i → s.length = 32)
    (hroots : (bitfieldRoot st, depositTreeRoot st, ebTreeRoot st) =
      (bitfieldRoot st', depositTreeRoot st', ebTreeRoot st')) :
    (bitfield st = bitfield st' ∧ subjectsByIndex st = subjectsByIndex st' ∧ ebBytes st = ebBytes st') ∨
      ∃ x ∈ hashedStrings st, ∃ y ∈ hashedStrings st', x ≠ y ∧ sha256 x = sha256 y := by
  simp only [Prod.mk.injEq] at hroots
  obtain ⟨hbf, hdep, heb⟩ := hroots
  rw [depositTreeRoot_eq, depositTreeRoot_eq] at hdep
  rw [ebTreeRoot_eq, ebTreeRoot_eq] at heb
  have hebl (st : Store) : ∀ p ∈ ebStrings st, p.length = 1 := by
    intro p hp
    obtain ⟨i, _, rfl⟩ := List.mem_map.mp hp
    rfl
  have hbits := eq_or_collision (List.mem_cons_self : bitfield st ∈ hashedStrings st)
    (List.mem_cons_self : bitfield st' ∈ hashedStrings st') hbf
  have hdsub (st : Store) : treeInputs sha256 (depositStrings st) ⊆ hashedStrings st :=
    fun _ hx => List.mem_cons_of_mem _ (List.mem_append_left _ hx)
  have hesub (st : Store) : treeInputs sha256 (ebStrings st) ⊆ hashedStrings st :=
    fun _ hx => List.mem_cons_of_mem _ (List.mem_append_right _ hx)
  rcases hbits with hbits | hcol
  · rcases treeRoot_binds sha256_length (by decide) (depositStrings_length hn hkeys) (depositStrings_length hn' hkeys')
      (by decide) (by decide) hdep with ⟨hmir, hmir'⟩ | hcol
    · have hle := size_le hn hn' hkeys hkeys' hmir
      have hle' := size_le hn' hn hkeys' hkeys hmir'
      have hnext : nextDepositIndex st = nextDepositIndex st' := UInt32.toNat_inj.mp (Nat.le_antisymm hle' hle)
      have hdeps := hmir.eq_of_length (by simp only [depositStrings, List.length_map, hnext])
      rcases treeRoot_binds sha256_length (by decide) (hebl st) (hebl st') (by decide) (by decide) heb with
        ⟨hmir, _⟩ | hcol
      · have hebs := hmir.eq_of_length (by simp only [ebStrings, List.length_map, hnext])
        exact .inl ⟨hbits, subjects_eq_of_strings hnext hdeps, bytes_eq_of_strings hnext hebs⟩
      · exact .inr (hcol.mono (hesub st) (hesub st'))
    · exact .inr (hcol.mono (hdsub st) (hdsub st'))
  · exact .inr hcol

/-- Two members, and the same store with a claimed row that is not in the trees. -/
def claimedStore : Store := putSubject (genesisStore ∅ duoGenesis) 3 (keyOf 0xc3) 7

theorem object_roots_commit_beside_a_claim :
    (bitfield (genesisStore ∅ duoGenesis) = bitfield claimedStore ∧
      subjectsByIndex (genesisStore ∅ duoGenesis) = subjectsByIndex claimedStore ∧
      ebBytes (genesisStore ∅ duoGenesis) = ebBytes claimedStore) ∨
      ∃ x ∈ hashedStrings (genesisStore ∅ duoGenesis), ∃ y ∈ hashedStrings claimedStore,
        x ≠ y ∧ sha256 x = sha256 y := by
  have hs := sound_empty.genesisStore duoGenesis
  have hs' : Sound claimedStore := hs.putSubject 3 (keyOf 0xc3) 7
  have hfacts : (roster (genesisStore ∅ duoGenesis)).count < 2 ^ 32 ∧ (roster claimedStore).count < 2 ^ 32 ∧
      (∀ s ∈ subjectsByIndex (genesisStore ∅ duoGenesis), s.length = 32) ∧
      (∀ s ∈ subjectsByIndex claimedStore, s.length = 32) := by
    decide +kernel
  obtain ⟨hc, hc', hl, hl'⟩ := hfacts
  have hsame : bitfieldRoot (genesisStore ∅ duoGenesis) = bitfieldRoot claimedStore ∧
      depositTreeRoot (genesisStore ∅ duoGenesis) = depositTreeRoot claimedStore ∧
      ebTreeRoot (genesisStore ∅ duoGenesis) = ebTreeRoot claimedStore :=
    roots_congr (fun _ hk => (getElem?_set_other rfl hk).symm)
  have hn := numbered_of_wf (hs.wf hc)
  have hn' := numbered_of_wf (hs'.wf hc')
  refine object_roots_commit hn hn' (hn.subjects_length hl) (hn'.subjects_length hl') ?_
  rw [hsame.1, hsame.2.1, hsame.2.2]

end Terpz.Leanval.Keeper
