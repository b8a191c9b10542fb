import Terpz.Leanval.DepositIndex

/-! The object roots a store keeps are those of its own bitfield and trees. Every setter of the
membership tables recomputes them last, and no other write touches what they are computed from.
Verification reads them before the roster, and reading the roster may change them. -/
namespace Terpz.Leanval
namespace Roster
variable {σ : Type}

/-- The same counter and the same numbers, whatever the flags and balances. -/
structure SameNumbers (r r' : Roster σ) : Prop where
  next : r'.next = r.next
  count : r'.count = r.count
  index : r'.index = r.index

theorem SameNumbers.refl (r : Roster σ) : r.SameNumbers r := ⟨rfl, rfl, rfl⟩

theorem SameNumbers.trans {a b c : Roster σ} (hab : a.SameNumbers b) (hbc : b.SameNumbers c) : a.SameNumbers c :=
  ⟨hbc.next.trans hab.next, hbc.count.trans hab.count, hbc.index.trans hab.index⟩

variable [DecidableEq σ]

private theorem SameNumbers.act {r r' : Roster σ} (h : r.SameNumbers r') (a : Act σ) :
    (r.act a).SameNumbers (r'.act a) := by
  cases a with
  | enroll s w =>
    refine ⟨?_, ?_, ?_⟩
    · simp only [Roster.act, enroll, h.index, h.next]
    · simp only [Roster.act, enroll, h.index, h.count]
    · simp only [Roster.act, enroll, slot, h.index, h.next]
  | drop s =>
    simp only [Roster.act, drop, h.index]
    split
    · exact h
    · exact ⟨h.next, h.count, rfl⟩

theorem SameNumbers.acts {r r' : Roster σ} (h : r.SameNumbers r') (as : List (Act σ)) :
    (r.acts as).SameNumbers (r'.acts as) := by
  induction as generalizing r r' with
  | nil => exact h
  | cons a as ih => exact ih (h.act a)

end Roster

namespace Keeper
open Lib Lib.PrefixStore

/-- The roots of the bitfield and the two trees as the store holds them now. -/
def objectRoots (st : Store) : Bytes := bitfieldRoot st ++ depositTreeRoot st ++ ebTreeRoot st

def Synced (st : Store) : Prop := lastObjectRoots st = objectRoots st

private theorem merkleLayer_digests (layer : List Bytes) : ∀ b ∈ merkleLayer layer, b.length = 32 := by
  induction layer using merkleLayer.induct with
  | case1 => simp [merkleLayer]
  | case2 a => simp [merkleLayer, hashNode]
  | case3 a b rest ih =>
    intro c hc
    rcases List.mem_cons.mp hc with rfl | hc
    · exact sha256_length _
    · exact ih c hc

private theorem merkleFold_length (fuel : Nat) {layer : List Bytes} (hne : layer ≠ [])
    (h : ∀ b ∈ layer, b.length = 32) : (merkleFold fuel layer).length = 32 := by
  have hhead : (layer.headD []).length = 32 := by
    cases layer with
    | nil => exact absurd rfl hne
    | cons a rest => exact h a List.mem_cons_self
  induction fuel generalizing layer with
  | zero => exact hhead
  | succ fuel ih =>
    unfold merkleFold
    split
    · have hne' : merkleLayer layer ≠ [] := by
        cases layer with
        | nil => exact absurd rfl hne
        | cons a rest => cases rest <;> simp [merkleLayer]
      refine ih hne' (merkleLayer_digests layer) ?_
      cases hl : merkleLayer layer with
      | nil => exact absurd hl hne'
      | cons a rest => exact merkleLayer_digests layer a (by rw [hl]; exact List.mem_cons_self)
    · exact hhead

theorem merkleRoot_length {leaves : List Bytes} (h : ∀ b ∈ leaves, b.length = 32) :
    (merkleRoot leaves).length = 32 := by
  unfold merkleRoot
  split
  · exact sha256_length _
  · rename_i hl
    exact merkleFold_length _ (fun he => hl (by rw [he]; rfl)) h

theorem objectRoots_length (st : Store) : (objectRoots st).length = objectRootsSize := by
  have hdep : (depositTreeRoot st).length = 32 := by
    apply merkleRoot_length
    intro b hb
    obtain ⟨i, _, rfl⟩ := List.mem_map.mp hb
    exact sha256_length _
  have heb : (ebTreeRoot st).length = 32 := by
    apply merkleRoot_length
    intro b hb
    obtain ⟨i, _, rfl⟩ := List.mem_map.mp hb
    exact sha256_length _
  simp [objectRoots, hdep, heb, bitfieldRoot, objectRootsSize]

theorem lastObjectRoots_setLastObjectRoots (st : Store) {roots : Bytes} (h : roots.length = objectRootsSize) :
    lastObjectRoots (setLastObjectRoots st roots) = roots := by
  rw [lastObjectRoots, setLastObjectRoots, get_set, if_pos rfl, padTo_of_length h, padTo_of_length h]

/-- The roots are a function of the membership tables. -/
theorem roots_congr {st st' : Store} (h : ∀ k, membershipTable k = true → st[k]? = st'[k]?) :
    bitfieldRoot st = bitfieldRoot st' ∧ depositTreeRoot st = depositTreeRoot st' ∧ ebTreeRoot st = ebTreeRoot st' := by
  obtain ⟨hbf, hnext, hsubj, heb⟩ := reads_congr h
  simp only [bitfieldRoot, depositTreeRoot, ebTreeRoot, depositLeaves, ebLeaves, hbf, hnext, hsubj, heb, and_self]

theorem objectRoots_congr {st st' : Store} (h : ∀ k, membershipTable k = true → st[k]? = st'[k]?) :
    objectRoots st = objectRoots st' := by
  obtain ⟨hbf, hdep, heb⟩ := roots_congr h
  rw [objectRoots, hbf, hdep, heb, objectRoots]

section Setters
variable {st : Store}

theorem synced_syncObjectRoots (st : Store) : Synced (syncObjectRoots st) := by
  have hroots : objectRoots (syncObjectRoots st) = objectRoots st := by
    exact objectRoots_congr (fun _ hk => getElem?_set_other rfl hk)
  rw [Synced, hroots]
  exact lastObjectRoots_setLastObjectRoots st (objectRoots_length st)

/-- A table the roots do not depend on and that is not their own. -/
def otherTable (k : Bytes) : Bool := !membershipTable k && k != objectRootsKey

namespace Synced

private theorem congr {st' : Store} (hs : Synced st) (h : ∀ k, otherTable k = false → st'[k]? = st[k]?) :
    Synced st' := by
  have hroots : objectRoots st' = objectRoots st := by
    apply objectRoots_congr
    intro k hk
    exact h k (by simp [otherTable, hk])
  have hlast : lastObjectRoots st' = lastObjectRoots st := by
    rw [lastObjectRoots, lastObjectRoots, PrefixStore.get, PrefixStore.get, h objectRootsKey rfl]
  rw [Synced, hroots, hlast]
  exact hs

theorem set (hs : Synced st) {k : Bytes} (v : Bytes) (hk : otherTable k = true) : Synced (PrefixStore.set st k v) := by
  apply hs.congr
  intro k' hk'
  rw [getElem?_set, if_neg]
  rintro rfl
  rw [hk] at hk'
  cases hk'

theorem delete (hs : Synced st) {k : Bytes} (hk : otherTable k = true) : Synced (PrefixStore.delete st k) := by
  apply hs.congr
  intro k' hk'
  rw [getElem?_delete, if_neg]
  rintro rfl
  rw [hk] at hk'
  cases hk'

theorem admitMember (hs : Synced st) (s : Bytes) (w : Int64) : Synced (Keeper.admitMember st s w) := by
  have halloc : Synced (allocateIndex st s).1 := by
    unfold allocateIndex
    split
    · exact hs
    · exact synced_syncObjectRoots _
  unfold Keeper.admitMember
  simp only
  split
  · exact synced_syncObjectRoots _
  · exact halloc

theorem acceptProof (hs : Synced st) (period : UInt64) (s : Bytes) (w : Int64) :
    Synced (Keeper.acceptProof st period s w) := (hs.set _ rfl).admitMember s w

theorem putSubject (hs : Synced st) (period : UInt64) (s : Bytes) (w : Int64) :
    Synced (Keeper.putSubject st period s w) := hs.set _ rfl

theorem bondedSetOrCarry (hs : Synced st) (period : UInt64) : Synced (Keeper.bondedSetOrCarry st period).1 := by
  have hrows (rows : List SubjectPower) {st : Store} (hs : Synced st) : Synced (rows.foldl (carryRow period) st) := by
    induction rows generalizing st with
    | nil => exact hs
    | cons r rows ih =>
      refine ih ?_
      unfold carryRow
      split
      · exact hs.acceptProof period r.subject r.weight
      · exact hs.putSubject period r.subject 0
  rw [bondedSetOrCarry_store]
  exact hrows _ hs

theorem bitsOrCarry (hs : Synced st) (period : UInt64) : Synced (Keeper.bitsOrCarry st period).1 := by
  unfold Keeper.bitsOrCarry
  simp only
  split
  · exact hs.bondedSetOrCarry period
  · exact hs

theorem verifyLNPR (hs : Synced st) (h : Host) (blob : LNPRBlob) (skipCrypto : Bool) :
    Synced (Keeper.verifyLNPR h st blob skipCrypto).1 := by
  unfold Keeper.verifyLNPR
  split
  · exact hs
  · split
    · exact hs
    · simp only
      split
      · exact hs
      · exact hs.bitsOrCarry blob.period

theorem leaveMember (hs : Synced st) (period : UInt64) (s : Bytes) : Synced (Keeper.leaveMember st period s) := by
  unfold Keeper.leaveMember clearMember
  split
  · exact synced_syncObjectRoots _
  · exact (hs.set _ rfl).delete rfl

/-- Applying ends with its own recomputation; a refusal is left to the verification. -/
theorem applyLNPR (hs : Synced st) (h : Host) (blob : LNPRBlob) : Synced (Keeper.applyLNPR h st blob).1 := by
  have hv := hs.verifyLNPR h blob false
  unfold Keeper.applyLNPR
  generalize Keeper.verifyLNPR h st blob false = r at hv
  obtain ⟨st1, e | _⟩ := r
  · exact hv
  · exact synced_syncObjectRoots _

theorem sendUpdates (hs : Synced st) (bits : Bool) (rows : List SubjectPower) :
    Synced (Keeper.sendUpdates st bits rows).1 :=
  sendUpdates_store bits rows hs (fun _ _ _ hs => hs.set _ rfl)

theorem validatorUpdates (hs : Synced st) (period : UInt64) : Synced (Keeper.validatorUpdates st period).1 := by
  unfold Keeper.validatorUpdates
  split
  · exact hs.sendUpdates true _
  · exact (hs.bondedSetOrCarry period).sendUpdates false _

theorem op (hs : Synced st) (h : Host) (op : Op) : Synced (opStep h st op) := by
  cases op with
  | applyJoin b =>
    simp only [opStep]
    unfold applyJoin
    cases validateJoin b with
    | error e => exact hs
    | ok _ => exact (hs.set _ rfl).acceptProof b.period b.subject b.weight
  | applyLeave b =>
    simp only [opStep, applyLeave_eq]
    by_cases hl : b.subject.length = 0
    · rw [if_pos hl]
      exact hs
    · rw [if_neg hl]
      exact hs.leaveMember b.period b.subject
  | verifyLNPR blob skipCrypto => exact hs.verifyLNPR h blob skipCrypto
  | applyLNPR blob => exact hs.applyLNPR h blob
  | bondedSetOrCarry period => exact hs.bondedSetOrCarry period
  | buildLNPR period => exact (synced_syncObjectRoots st).bitsOrCarry period
  | validatorUpdates period => exact hs.validatorUpdates period

theorem write (hs : Synced st) (h : Host) (w : Write) : Synced (writeStep h st w) := by
  cases w with
  | initGenesis gs =>
    simp only [writeStep]
    cases hg : initGenesis st gs with
    | error e => exact hs
    | ok st' =>
      rw [initGenesis_eq_ok hg]
      exact synced_syncObjectRoots _
  | acceptProof period subject weight => exact hs.acceptProof period subject weight
  | putSubject period subject claimedWeight => exact hs.putSubject period subject claimedWeight
  | op op => exact hs.op h op

end Synced
end Setters

/-- The writes of membership, and the merge of a foreign bitfield, which may set any bit. -/
inductive RootWrite where
  | write (w : Write)
  | orMergeBitfield (other : Bytes)

def rootStep (h : Host) (st : Store) : RootWrite → Store
  | .write w => writeStep h st w
  | .orMergeBitfield other => orMergeBitfield st other

private theorem sameNumbers_orMerge (st : Store) (other : Bytes) :
    (roster st).SameNumbers (roster (orMergeBitfield st other)) := by
  have hset (v : Bytes) : (roster st).SameNumbers (roster (set st bitfieldKey v)) := by
    refine ⟨?_, ?_, ?_⟩
    · exact congrArg getU32 (by rw [get_set, if_neg (by decide)])
    · simp only [roster]
      rw [iteratePrefix_set_of_disjoint (by decide)]
    · funext s
      have hne : bitfieldKey ≠ depositIndexKey s := fun he => absurd (List.cons.inj he).1 (by decide)
      exact congrArg indexOfValue (by rw [get_set, if_neg hne])
  simp only [orMergeBitfield, setBitfield, roster_syncObjectRoots]
  exact hset _

/-- The roots are fresh, and the numbers come from acts on the empty roster. -/
structure Rooted (st : Store) : Prop where
  synced : Synced st
  numbers : ∃ as, ((roster ∅).acts as).SameNumbers (roster st)

theorem Rooted.step {st : Store} (hr : Rooted st) (h : Host) (w : RootWrite) : Rooted (rootStep h st w) := by
  obtain ⟨as, has⟩ := hr.numbers
  cases w with
  | write w =>
    obtain ⟨bs, hbs⟩ := leads_write h st w
    refine ⟨hr.synced.write h w, as ++ bs, ?_⟩
    rw [Roster.acts_append]
    exact hbs ▸ has.acts bs
  | orMergeBitfield other => exact ⟨synced_syncObjectRoots _, as, has.trans (sameNumbers_orMerge st other)⟩

section Leaves
variable {st : Store}

/-- No two subjects share a number and every number is below the counter. -/
theorem Rooted.distinct (hr : Rooted st) (hc : (roster st).count < 2 ^ 32) {s : Bytes} {i : UInt32}
    (hi : (roster st).index s = some i) : i < nextDepositIndex st ∧ subjectByIndex st i = s := by
  obtain ⟨as, has⟩ := hr.numbers
  rw [has.count] at hc
  have hwf := Roster.acts_wf roster_empty_wf as hc
  have hsub := index_subjectByIndex_of_index hi
  rw [has.index] at hi hsub
  have hlt := hwf.index_lt s i hi
  rw [← has.next] at hlt
  exact ⟨hlt, hwf.index_inj _ s i hsub hi⟩

theorem indices_getElem? {n i : UInt32} (hi : i < n) : (indices n)[i.toNat]? = some i := by
  have hlt : i.toNat < n.toNat := UInt32.lt_iff_toNat_lt.mp hi
  simp [indices, hlt]

end Leaves

/-- A record of one row, with the Dummy proof for the roots of a store. -/
def dummyRecord (st : Store) (period : UInt64) (s : Bytes) (w : Int64) : LNPRBlob :=
  ⟨period, [⟨s, w, dummyStwoProveBoundRoots period s w (lastObjectRoots st)⟩]⟩

/-- The only validator has left by a record of period 1. -/
def emptiedStore : Store :=
  run (rootStep dummyHost) (genesisStore ∅ soloGenesis)
    [.write (.op (.applyLNPR (dummyRecord (genesisStore ∅ soloGenesis) 1 (keyOf 0xa1) 0)))]

end Keeper
end Terpz.Leanval
