import Terpz.Lib.Reads
import Terpz.Aggregate.Blob

/-! The wire format of an aggregate: a header of fixed fields, two counted lists and one byte. The counts are narrowed
to a byte when they are written. -/
namespace Terpz.Aggregate
open Lib Lib.BigEndian Lib.Reads

/-- ASCII "STWO". -/
def magic : Bytes := ascii "STWO"

/-- Bytes of a slice as an array of the length that is asked for; another length stops the program. -/
def wordLE (width : Nat) (b : Bytes) : Reads Nat := if b.length = width then .ok (leNat b) else .error .outOfBounds

def word32 (b : Bytes) : Reads UInt32 := (wordLE 4 b).map UInt32.ofNat

def word64 (b : Bytes) : Reads UInt64 := (wordLE 8 b).map UInt64.ofNat

def array32 (b : Bytes) : Reads Bytes32 := if h : b.length = 32 then .ok ⟨b, h⟩ else .error .outOfBounds

def encodeBlob (blob : AggregateBlob) : Except AggError Bytes :=
  .ok (magic ++ [blob.proverId] ++ [blob.curveId] ++ leBytes 2 blob.nLeaves.toNat ++ leBytes 8 blob.period.toNat ++
    blob.bitfieldOr.val ++ blob.objectRoot.val ++ blob.composedCommit.val ++
    [UInt8.ofNat blob.evals.length] ++ blob.evals.flatMap (fun e => leBytes 4 e.toNat) ++
    [UInt8.ofNat blob.fri.roots.length] ++ blob.fri.roots.flatMap Subtype.val ++ [blob.fri.nQueries])

def decodeBlob (bytes : Bytes) : Reads (Except AggError AggregateBlob) :=
  if (ascii "DSTW").isPrefixOf bytes then .ok (.error .dummyChecksum)
  else if (ascii "FRIC").isPrefixOf bytes then .ok (.error .badMagic)
  else if bytes.length < 4 + 2 + 2 + 8 + 32 + 32 + 32 then .ok (.error .truncated)
  else do
    let head ← slice bytes 0 4
    if head ≠ magic then pure (.error .badMagic)
    else
      let proverId ← index bytes 4
      let curveId ← index bytes 5
      if proverId ≠ circuitTypeStwo ∨ curveId ≠ curveTypeM31 then pure (.error .badMagic)
      else
        let b6 ← index bytes 6
        let b7 ← index bytes 7
        let nLeaves := UInt16.ofNat (leNat [b6, b7])
        let period ← getAt 8 word64 bytes 8
        let bitfieldOr ← getAt 32 array32 bytes 16
        let objectRoot ← getAt 32 array32 bytes 48
        let composedCommit ← getAt 32 array32 bytes 80
        if 112 ≥ bytes.length then pure (.error .truncated)
        else
          let ne ← index bytes 112
          match ← readItems AggError.truncated 4 word32 bytes ne.toNat 113 [] with
          | .error e => pure (.error e)
          | .ok (i, evals) =>
            if i ≥ bytes.length then pure (.error .truncated)
            else
              let nr ← index bytes i
              match ← readItems AggError.truncated 32 array32 bytes nr.toNat (i + 1) [] with
              | .error e => pure (.error e)
              | .ok (i, roots) =>
                if i ≥ bytes.length then pure (.error .truncated)
                else
                  let nQueries ← index bytes i
                  pure (.ok ⟨proverId, curveId, nLeaves, period, bitfieldOr, objectRoot, composedCommit, evals,
                    ⟨roots, nQueries⟩⟩)

section Words

theorem leBytes_length (n v : Nat) : (leBytes n v).length = n := by
  rw [leBytes, List.length_reverse, beBytes_length]

theorem leNat_leBytes (n v : Nat) : leNat (leBytes n v) = v % 256 ^ n := by
  rw [leNat, leBytes, List.reverse_reverse, beNat_beBytes]

theorem leNat_lt (b : Bytes) : leNat b < 256 ^ b.length := by
  rw [leNat, ← List.length_reverse]
  exact beNat_lt _

theorem leBytes_leNat {n : Nat} {b : Bytes} (h : b.length = n) : leBytes n (leNat b) = b := by
  rw [leBytes, leNat, beBytes_beNat_of_length (by rw [List.length_reverse, h]), List.reverse_reverse]

/-- A word type whose numbers are those of the width, written and read in little endian. -/
private theorem word_fixed {α : Type} {width : Nat} {toNat : α → Nat} {ofNat : Nat → α}
    (hlt : ∀ a, toNat a < 256 ^ width) (hof : ∀ a, ofNat (toNat a) = a)
    (hto : ∀ n < 256 ^ width, toNat (ofNat n) = n) :
    Fixed width (fun a => leBytes width (toNat a)) (fun b => (wordLE width b).map ofNat) where
  put_length a := leBytes_length _ _
  get_put a := by
    have h : wordLE width (leBytes width (toNat a)) = .ok (toNat a) := by
      rw [wordLE, if_pos (leBytes_length _ _), leNat_leBytes, Nat.mod_eq_of_lt (hlt a)]
    rw [h]
    exact congrArg Except.ok (hof a)
  put_surjective w hw := by
    have hbound : leNat w < 256 ^ width := hw ▸ leNat_lt w
    exact ⟨ofNat (leNat w), by rw [hto _ hbound, leBytes_leNat hw]⟩

theorem word32_fixed : Fixed 4 (fun v : UInt32 => leBytes 4 v.toNat) word32 :=
  word_fixed (fun v => v.toNat_lt) (fun _ => UInt32.ofNat_toNat) (fun _ h => UInt32.toNat_ofNat_of_lt' h)

theorem word64_fixed : Fixed 8 (fun v : UInt64 => leBytes 8 v.toNat) word64 :=
  word_fixed (fun v => v.toNat_lt) (fun _ => UInt64.ofNat_toNat) (fun _ h => UInt64.toNat_ofNat_of_lt' h)

theorem array32_fixed : Fixed 32 (Subtype.val : Bytes32 → Bytes) array32 where
  put_length a := a.2
  get_put a := dif_pos a.2
  put_surjective w hw := ⟨⟨w, hw⟩, rfl⟩

/-- Two bytes are those of the number they are read as. -/
theorem leBytes_pair (x y : UInt8) : leBytes 2 (UInt16.ofNat (leNat [x, y])).toNat = [x, y] := by
  have hlt : leNat [x, y] < 256 ^ 2 := leNat_lt [x, y]
  rw [UInt16.toNat_ofNat_of_lt' hlt]
  exact leBytes_leNat rfl

theorem leNat_pair (v : UInt16) : ∃ x y, leBytes 2 v.toNat = [x, y] ∧ UInt16.ofNat (leNat [x, y]) = v := by
  obtain ⟨x, y, hxy⟩ := List.length_eq_two.mp (leBytes_length 2 v.toNat)
  have hlt : v.toNat < 256 ^ 2 := v.toNat_lt
  refine ⟨x, y, hxy, ?_⟩
  rw [← hxy, leNat_leBytes, Nat.mod_eq_of_lt hlt, UInt16.ofNat_toNat]

end Words

section Format
variable {blob : AggregateBlob} {b bytes rest : Bytes}

/-- The bytes of a blob in the order in which they are read. -/
private theorem encodeBlob_eq (blob : AggregateBlob) : encodeBlob blob = .ok (magic ++ (blob.proverId ::
    blob.curveId :: (leBytes 2 blob.nLeaves.toNat ++ (leBytes 8 blob.period.toNat ++ (blob.bitfieldOr.val ++
    (blob.objectRoot.val ++ (blob.composedCommit.val ++ (UInt8.ofNat blob.evals.length ::
    (blob.evals.flatMap (fun e => leBytes 4 e.toNat) ++ (UInt8.ofNat blob.fri.roots.length ::
    (blob.fri.roots.flatMap Subtype.val ++ [blob.fri.nQueries]))))))))))) := by
  simp only [encodeBlob, List.append_assoc, List.cons_append, List.nil_append]

private theorem count_toNat_byte {n : Nat} (h : n ≤ 255) : (UInt8.ofNat n).toNat = n :=
  UInt8.toNat_ofNat_of_lt' (Nat.lt_succ_of_le h)

private theorem drop_cons {i : Nat} {x : UInt8} (h : bytes.drop i = x :: rest) : bytes.drop (i + 1) = rest :=
  drop_add (f := [x]) h

private theorem lt_of_drop {i : Nat} {x : UInt8} (h : bytes.drop i = x :: rest) : i < bytes.length := by
  have hlen := congrArg List.length h
  rw [List.length_drop, List.length_cons] at hlen
  omega

/-- The header behind the magic starts with neither of the two foreign magics. -/
private theorem foreign_magic (rest : Bytes) : (ascii "DSTW").isPrefixOf (magic ++ rest) = false ∧
    (ascii "FRIC").isPrefixOf (magic ++ rest) = false := by
  have hm : magic = [83, 84, 87, 79] := by decide
  have hd : ascii "DSTW" = [68, 83, 84, 87] := by decide
  have hf : ascii "FRIC" = [70, 82, 73, 67] := by decide
  rw [hm, hd, hf]
  exact ⟨rfl, rfl⟩

/-- A blob with the ids of the format and counts that fit a byte is read back, whatever follows it. -/
theorem decodeBlob_encoded (hp : blob.proverId = circuitTypeStwo) (hc : blob.curveId = curveTypeM31)
    (he : blob.evals.length ≤ 255) (hr : blob.fri.roots.length ≤ 255) (hb : encodeBlob blob = .ok b) (rest : Bytes) :
    decodeBlob (b ++ rest) = .ok (.ok blob) := by
  rw [encodeBlob_eq] at hb
  obtain ⟨x, y, hxy, hv⟩ := leNat_pair blob.nLeaves
  have hbytes := congrArg (· ++ rest) (Except.ok.inj hb).symm
  simp only [List.append_assoc, List.cons_append, hxy, List.nil_append] at hbytes
  generalize b ++ rest = bytes at hbytes
  have hmagic : magic.length = 4 := by decide
  have hlen : 112 < bytes.length := by
    rw [hbytes]
    simp only [List.length_append, List.length_cons, hmagic, leBytes_length, blob.bitfieldOr.2, blob.objectRoot.2,
      blob.composedCommit.2]
    omega
  have h0 : bytes.drop 0 = magic ++ _ := hbytes
  have hslice : slice bytes 0 4 = .ok magic := hmagic ▸ slice_of_drop (Nat.zero_le _) h0
  have h4 := drop_add h0
  rw [hmagic, Nat.zero_add] at h4
  have h5 := drop_cons h4
  have h6 := drop_cons h5
  have h7 := drop_cons h6
  have h8 := drop_cons h7
  obtain ⟨hperiod, h16⟩ := word64_fixed.getAt_put (by omega) h8
  obtain ⟨hbits, h48⟩ := array32_fixed.getAt_put (by omega) h16
  obtain ⟨hroot, h80⟩ := array32_fixed.getAt_put (by omega) h48
  obtain ⟨hcommit, h112⟩ := array32_fixed.getAt_put (by omega) h80
  have h113 := drop_cons h112
  obtain ⟨hevals, hnr, -⟩ := readItems_put AggError.truncated word32_fixed hlen h113 []
  obtain ⟨hroots, hnq, -⟩ := readItems_put AggError.truncated array32_fixed (lt_of_drop hnr) (drop_cons hnr) []
  obtain ⟨hdstw, hfric⟩ := foreign_magic (bytes.drop 4)
  rw [h4, ← hbytes] at hdstw hfric
  have hids : ¬ (blob.proverId ≠ circuitTypeStwo ∨ blob.curveId ≠ curveTypeM31) := by
    rw [hp, hc]
    decide
  unfold decodeBlob
  rw [if_neg (by rw [hdstw]; decide), if_neg (by rw [hfric]; decide), if_neg (by omega), hslice, ok_bind,
    if_neg (not_not.mpr rfl), index_of_drop h4, ok_bind, index_of_drop h5, ok_bind, if_neg hids, index_of_drop h6,
    ok_bind, index_of_drop h7, ok_bind, hperiod, ok_bind, hbits, ok_bind, hroot, ok_bind, hcommit, ok_bind,
    if_neg (by omega), index_of_drop h112, ok_bind, count_toNat_byte he, hevals, ok_bind]
  dsimp only
  rw [if_neg (not_le.mpr (lt_of_drop hnr)), index_of_drop hnr, ok_bind, count_toNat_byte hr, hroots, ok_bind]
  dsimp only
  rw [if_neg (not_le.mpr (lt_of_drop hnq)), index_of_drop hnq, ok_bind, hv]
  rfl

private theorem exists_cons_drop {i : Nat} (h : i < bytes.length) : ∃ x, bytes.drop i = x :: bytes.drop (i + 1) :=
  ⟨_, List.drop_eq_getElem_cons h⟩

/-- On any string the decoder ends with an error or with a blob whose bytes stand in front of the string. -/
theorem decodeBlob_cases (bytes : Bytes) :
    (∃ e, decodeBlob bytes = .ok (.error e)) ∨
    ∃ blob b, decodeBlob bytes = .ok (.ok blob) ∧ encodeBlob blob = .ok b ∧ b <+: bytes := by
  unfold decodeBlob
  by_cases hdstw : (ascii "DSTW").isPrefixOf bytes
  · exact .inl ⟨_, if_pos hdstw⟩
  by_cases hfric : (ascii "FRIC").isPrefixOf bytes
  · exact .inl ⟨_, by rw [if_neg hdstw, if_pos hfric]⟩
  by_cases hshort : bytes.length < 4 + 2 + 2 + 8 + 32 + 32 + 32
  · exact .inl ⟨_, by rw [if_neg hdstw, if_neg hfric, if_pos hshort]⟩
  rw [if_neg hdstw, if_neg hfric, if_neg hshort, slice_eq (by omega) (by omega), ok_bind]
  by_cases hmagic : (bytes.drop 0).take (4 - 0) ≠ magic
  · exact .inl ⟨_, by rw [if_pos hmagic]; rfl⟩
  have h0 : bytes = magic ++ bytes.drop 4 := by
    conv_lhs => rw [← List.take_append_drop 4 bytes]
    rw [← not_not.mp hmagic]
    rfl
  obtain ⟨proverId, h4⟩ := exists_cons_drop (show 4 < bytes.length by omega)
  obtain ⟨curveId, h5⟩ := exists_cons_drop (show 5 < bytes.length by omega)
  rw [if_neg hmagic, index_of_drop h4, ok_bind, index_of_drop h5, ok_bind]
  by_cases hids : proverId ≠ circuitTypeStwo ∨ curveId ≠ curveTypeM31
  · exact .inl ⟨_, by rw [if_pos hids]; rfl⟩
  obtain ⟨x, h6⟩ := exists_cons_drop (show 6 < bytes.length by omega)
  obtain ⟨y, h7⟩ := exists_cons_drop (show 7 < bytes.length by omega)
  obtain ⟨period, hperiod, h8⟩ := word64_fixed.exists_getAt (b := bytes) (i := 8) (by omega)
  obtain ⟨bitfieldOr, hbits, h16⟩ := array32_fixed.exists_getAt (b := bytes) (i := 16) (by omega)
  obtain ⟨objectRoot, hroot, h48⟩ := array32_fixed.exists_getAt (b := bytes) (i := 48) (by omega)
  obtain ⟨commit, hcommit, h80⟩ := array32_fixed.exists_getAt (b := bytes) (i := 80) (by omega)
  rw [if_neg hids, index_of_drop h6, ok_bind, index_of_drop h7, ok_bind, hperiod, ok_bind, hbits, ok_bind, hroot,
    ok_bind, hcommit, ok_bind]
  by_cases h112 : 112 ≥ bytes.length
  · exact .inl ⟨_, by rw [if_pos h112]; rfl⟩
  obtain ⟨ne, hne⟩ := exists_cons_drop (not_le.mp h112)
  rw [if_neg h112, index_of_drop hne, ok_bind]
  rcases readItems_cases AggError.truncated word32_fixed ne.toNat (not_le.mp h112) [] with
    herr | ⟨evals, hevals, hread, h113, hle⟩
  · exact .inl ⟨_, by rw [herr]; rfl⟩
  rw [hread, ok_bind]
  dsimp only
  generalize 112 + 1 + ne.toNat * 4 = i at h113 hle
  by_cases hi : i ≥ bytes.length
  · exact .inl ⟨_, by rw [if_pos hi]; rfl⟩
  obtain ⟨nr, hnr⟩ := exists_cons_drop (not_le.mp hi)
  rw [if_neg hi, index_of_drop hnr, ok_bind]
  rcases readItems_cases AggError.truncated array32_fixed nr.toNat (not_le.mp hi) [] with
    herr | ⟨roots, hroots, hread', hroots', hle'⟩
  · exact .inl ⟨_, by rw [herr]; rfl⟩
  rw [hread', ok_bind]
  dsimp only
  generalize i + 1 + nr.toNat * 32 = j at hroots' hle'
  by_cases hj : j ≥ bytes.length
  · exact .inl ⟨_, by rw [if_pos hj]; rfl⟩
  obtain ⟨nQueries, hnq⟩ := exists_cons_drop (not_le.mp hj)
  rw [if_neg hj, index_of_drop hnq, ok_bind]
  refine .inr ⟨_, _, rfl, encodeBlob_eq _, bytes.drop (j + 1), ?_⟩
  have hcount (n : UInt8) {m : Nat} (h : m = n.toNat) : UInt8.ofNat m = n := by rw [h, UInt8.ofNat_toNat]
  simp only [List.append_assoc, List.cons_append, List.nil_append, hcount ne hevals, hcount nr hroots, leBytes_pair]
  rw [← hnq, ← hroots', ← hnr, ← h113, ← hne, ← h80, ← h48, ← h16, ← h8, ← h7, ← h6, ← h5, ← h4, ← h0]

/-- Blobs with the ids of the format and counts that fit a byte are read back; no string makes the decoder stop; and
an accepted string starts with the bytes of what it was read as. -/
theorem blob_format_lawful :
    (∀ blob : AggregateBlob, blob.proverId = 2 → blob.curveId = 5 → blob.evals.length ≤ 255 →
      blob.fri.roots.length ≤ 255 → ∃ b, encodeBlob blob = .ok b ∧ decodeBlob b = .ok (.ok blob)) ∧
    (∀ bytes, ∃ result, decodeBlob bytes = .ok result) ∧
    ∀ bytes blob, decodeBlob bytes = .ok (.ok blob) → ∃ b, encodeBlob blob = .ok b ∧ b <+: bytes := by
  refine ⟨?_, ?_, ?_⟩
  · intro blob hp hc he hr
    have hdecode := decodeBlob_encoded hp hc he hr rfl []
    rw [List.append_nil] at hdecode
    exact ⟨_, rfl, hdecode⟩
  · intro bytes
    rcases decodeBlob_cases bytes with ⟨e, he⟩ | ⟨blob, _, hb, _⟩
    · exact ⟨_, he⟩
    · exact ⟨_, hb⟩
  · intro bytes blob hb
    rcases decodeBlob_cases bytes with ⟨e, he⟩ | ⟨blob', b, hb', hencode, hprefix⟩
    · rw [hb] at he
      cases he
    · rw [hb] at hb'
      cases hb'
      exact ⟨b, hencode, hprefix⟩

end Format
end Terpz.Aggregate
