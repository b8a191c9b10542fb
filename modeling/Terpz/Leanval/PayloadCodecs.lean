import Mathlib.Data.Int.ModEq
import Terpz.Leanval.Ffi.Payload

/-! The LNCW payload on both sides of the engine boundary: the two encoders write the same bytes and the two
decoders agree on every byte string. -/
namespace Terpz.Leanval
open Lib Lib.BigEndian Lib.Reads

namespace Cwffi

/-- `DecodePayload` read by read. -/
def Checked.decodePayload (b : Bytes) : Reads (Except String Payload) :=
  if b.length < 4 + 1 + 8 + 4 then .ok (.error "lean-cw: payload truncated")
  else do
    let magic ← sliceTo b 4
    if magic ≠ payloadMagic then pure (.error "lean-cw: bad magic")
    else
      let version ← index b 4
      if version ≠ payloadVersion then pure (.error ("lean-cw: bad version " ++ toString version))
      else
        let height := (getU64 (← slice b 5 13)).toInt64
        let n := (getU32 (← slice b 13 17)).toNat
        let txs ← readTxs "lean-cw: payload truncated" b n 17 []
        pure (txs.map (⟨height, ·⟩))

end Cwffi

/-- Both fail, or both succeed with the same transactions and heights that agree modulo 2^64. -/
def SameOutcome : Except String Cwffi.Payload → Except Ffi.PayloadError Ffi.Payload → Prop
  | .error _, .error _ => True
  | .ok p, .ok q => p.txs = q.txs ∧ p.height.toInt ≡ q.height.toNat [ZMOD 2 ^ 64]
  | _, _ => False

private theorem heights_agree (h : Int64) : h.toInt ≡ h.toUInt64.toNat [ZMOD 2 ^ 64] := by
  change h.toBitVec.toInt % 2 ^ 64 = h.toBitVec.toNat % 2 ^ 64
  rw [BitVec.toInt_eq_toNat_bmod]
  exact Int.bmod_emod

theorem Cwffi.decodeTxs_error {n : Nat} {b : Bytes} {e : String} (h : decodeTxs n b = .error e) :
    e = "lean-cw: payload truncated" := by
  induction n generalizing b with
  | zero => cases h
  | succ n ih =>
    unfold decodeTxs at h
    split at h
    · exact (Except.error.inj h).symm
    · simp only at h
      split at h
      · exact (Except.error.inj h).symm
      · cases hrest : decodeTxs n ((b.drop 4).drop (beNat (b.take 4))) with
        | error e' =>
          rw [hrest] at h
          cases h
          exact ih hrest
        | ok rest =>
          rw [hrest] at h
          cases h

section Header
variable {b : Bytes}

private theorem height_read (h : ¬ b.length < 4 + 1 + 8 + 4) :
    slice b 5 13 = .ok ((b.drop 5).take 8) ∧ getU64 ((b.drop 5).take 8) = getU64 (b.drop 5) := by
  refine ⟨slice_eq (by omega) (by omega), ?_⟩
  simp only [getU64, List.length_take, List.length_drop, List.take_take, Nat.min_self]
  rw [if_neg (by omega), if_neg (by omega)]

private theorem count_read (h : ¬ b.length < 4 + 1 + 8 + 4) : slice b 13 17 = .ok ((b.drop 13).take 4) ∧
    (getU32 ((b.drop 13).take 4)).toNat = beNat ((b.drop 13).take 4) :=
  ⟨slice_eq (by omega) (by omega), getU32_take (by rw [List.length_drop]; omega)⟩

theorem Cwffi.Checked.decodePayload_eq (b : Bytes) : decodePayload b = .ok (Cwffi.decodePayload b) := by
  unfold decodePayload Cwffi.decodePayload
  by_cases hlen : b.length < 4 + 1 + 8 + 4
  · rw [if_pos hlen, if_pos hlen]
  · rw [if_neg hlen, if_neg hlen, sliceTo_eq (by omega), ok_bind]
    by_cases hmagic : b.take 4 ≠ payloadMagic
    · rw [if_pos hmagic, if_pos hmagic]
      rfl
    · rw [if_neg hmagic, if_neg hmagic, index_eq 0 (by omega), ok_bind]
      by_cases hversion : b.getD 4 0 ≠ payloadVersion
      · rw [if_pos hversion, if_pos hversion]
        rfl
      · rw [if_neg hversion, if_neg hversion, (height_read hlen).1, ok_bind, (count_read hlen).1, ok_bind]
        simp only [(height_read hlen).2, (count_read hlen).2]
        rw [readTxs_eq _ _ (by omega), ok_bind]
        cases htxs : Cwffi.decodeTxs (beNat ((b.drop 13).take 4)) (b.drop 17) with
        | error e =>
          rw [Cwffi.decodeTxs_error htxs]
          rfl
        | ok txs => rfl

/-- The engine's decoder stays inside the string; it fails where the other fails and reads the same payload. -/
theorem Ffi.Payload.decode_outcome (b : Bytes) : ∃ r, Ffi.Payload.decode b = .ok r ∧
    ((∃ e e', Cwffi.decodePayload b = .error e ∧ r = .error e') ∨
      ∃ p, Cwffi.decodePayload b = .ok p ∧ r = .ok ⟨p.height.toUInt64, p.txs⟩) := by
  unfold Ffi.Payload.decode Cwffi.decodePayload
  by_cases hlen : b.length < 4 + 1 + 8 + 4
  · rw [if_pos hlen, if_pos hlen]
    exact ⟨_, rfl, .inl ⟨_, _, rfl, rfl⟩⟩
  · rw [if_neg hlen, if_neg hlen, slice_eq (by omega) (by omega), ok_bind]
    by_cases hmagic : b.take 4 ≠ Cwffi.payloadMagic
    · rw [if_pos hmagic]
      exact ⟨_, if_pos hmagic, .inl ⟨_, _, rfl, rfl⟩⟩
    · have hmagic' : ¬ ((b.drop 0).take (4 - 0) ≠ Ffi.payloadMagic) := hmagic
      rw [if_neg hmagic, if_neg hmagic', index_eq 0 (by omega), ok_bind]
      by_cases hversion : b.getD 4 0 ≠ Cwffi.payloadVersion
      · rw [if_pos hversion]
        exact ⟨_, if_pos hversion, .inl ⟨_, _, rfl, rfl⟩⟩
      · have hversion' : ¬ (b.getD 4 0 ≠ Ffi.payloadVersion) := hversion
        rw [if_neg hversion, if_neg hversion', (height_read hlen).1, ok_bind, (count_read hlen).1, ok_bind]
        simp only [(height_read hlen).2, (count_read hlen).2]
        rw [readTxs_eq _ _ (by omega), ok_bind]
        refine ⟨_, rfl, ?_⟩
        cases Cwffi.decodeTxs (beNat ((b.drop 13).take 4)) (b.drop 17) with
        | error e => exact .inl ⟨_, _, rfl, rfl⟩
        | ok txs =>
          refine .inr ⟨_, rfl, ?_⟩
          rw [getI64, UInt64.toUInt64_toInt64]
          rfl

end Header

section Encoders

private theorem putU32_ofNat (n : Nat) : putU32 (UInt32.ofNat n) = beBytes 4 n := by
  rw [putU32, UInt32.toNat_ofNat', show 2 ^ 32 = 256 ^ 4 by norm_num, ← beNat_beBytes 4 n]
  exact beBytes_beNat_of_length (beBytes_length 4 n)

/-- The loop of the engine's encoder appends what the other encoder concatenates. -/
private theorem foldl_entries (txs : List Bytes) (out : Bytes) :
    txs.foldl (fun out tx => out ++ putU32 (UInt32.ofNat tx.length) ++ tx) out =
      out ++ txs.flatMap (fun tx => beBytes 4 tx.length ++ tx) := by
  induction txs generalizing out with
  | nil => simp
  | cons tx txs ih =>
    rw [List.foldl_cons, ih, putU32_ofNat, List.flatMap_cons]
    simp only [List.append_assoc]

theorem encode_eq_encode (height : Int64) (txs : List Bytes) :
    Ffi.Payload.encode ⟨height.toUInt64, txs⟩ = Cwffi.Payload.encode ⟨height, txs⟩ := by
  rw [Ffi.Payload.encode, Cwffi.Payload.encode, foldl_entries, putU32_ofNat, putI64]
  simp only [List.append_assoc, List.singleton_append]
  simp [Ffi.payloadMagic, Cwffi.payloadMagic, Ffi.payloadVersion, Cwffi.payloadVersion]

private theorem decodeTxs_entries (txs : List Bytes) (hsize : ∀ tx ∈ txs, tx.length < 2 ^ 32) :
    Cwffi.decodeTxs txs.length (txs.flatMap (fun tx => beBytes 4 tx.length ++ tx)) = .ok txs := by
  induction txs with
  | nil => rfl
  | cons tx txs ih =>
    obtain ⟨htx, htxs⟩ := List.forall_mem_cons.mp hsize
    have hword : beNat (beBytes 4 tx.length) = tx.length := by
      rw [beNat_beBytes, Nat.mod_eq_of_lt (by omega)]
    rw [List.flatMap_cons, List.length_cons, Cwffi.decodeTxs]
    simp only [List.append_assoc, List.take_left' (beBytes_length 4 tx.length), hword,
      List.drop_left' (beBytes_length 4 tx.length), List.take_left, List.drop_left, ih htxs]
    rw [if_neg (by simp), if_neg (by simp)]
    rfl

/-- A payload within the widths of its length fields is read back. -/
theorem Cwffi.decodePayload_encode (p : Cwffi.Payload) (hcount : p.txs.length < 2 ^ 32)
    (hsize : ∀ tx ∈ p.txs, tx.length < 2 ^ 32) : Cwffi.decodePayload p.encode = .ok p := by
  have hword : beNat (beBytes 4 p.txs.length) = p.txs.length := by
    rw [beNat_beBytes, Nat.mod_eq_of_lt (by omega)]
  have h5 : p.encode.drop 5 = putI64 p.height ++ (beBytes 4 p.txs.length ++
      p.txs.flatMap (fun tx => beBytes 4 tx.length ++ tx)) := by
    simp [Payload.encode, payloadMagic]
  have h13 : p.encode.drop 13 = beBytes 4 p.txs.length ++ p.txs.flatMap (fun tx => beBytes 4 tx.length ++ tx) := by
    rw [← List.drop_drop (i := 8) (j := 5), h5, List.drop_left' (putI64_length p.height)]
  have h17 : p.encode.drop 17 = p.txs.flatMap (fun tx => beBytes 4 tx.length ++ tx) := by
    rw [← List.drop_drop (i := 4) (j := 13), h13, List.drop_left' (beBytes_length 4 p.txs.length)]
  have hlen : ¬ p.encode.length < 4 + 1 + 8 + 4 := by
    have := congrArg List.length h17
    simp [Payload.encode, payloadMagic]
    omega
  have hheight : getI64 (p.encode.drop 5) = p.height := by
    rw [h5, getI64, putI64, getU64_putU64_append, Int64.toInt64_toUInt64]
  rw [decodePayload, if_neg hlen, if_neg (by simp [Payload.encode, payloadMagic]),
    if_neg (by simp [Payload.encode, payloadMagic]), h13, h17, List.take_left' (beBytes_length 4 p.txs.length), hword,
    decodeTxs_entries p.txs hsize, hheight]
  rfl

end Encoders

/-- The two codecs of the payload are one: same bytes written, payloads read back, and the same outcome on every
byte string, with no read outside it. -/
theorem payload_codecs_agree :
    (∀ (height : Int64) (txs : List Bytes), txs.length < 2 ^ 32 → (∀ tx ∈ txs, tx.length < 2 ^ 32) →
      Cwffi.Payload.encode ⟨height, txs⟩ = Ffi.Payload.encode ⟨height.toUInt64, txs⟩ ∧
      Cwffi.decodePayload (Cwffi.Payload.encode ⟨height, txs⟩) = .ok ⟨height, txs⟩ ∧
      Ffi.Payload.decode (Ffi.Payload.encode ⟨height.toUInt64, txs⟩) = .ok (.ok ⟨height.toUInt64, txs⟩)) ∧
    ∀ b, Cwffi.Checked.decodePayload b = .ok (Cwffi.decodePayload b) ∧
      ∃ r, Ffi.Payload.decode b = .ok r ∧ SameOutcome (Cwffi.decodePayload b) r := by
  constructor
  · intro height txs hcount hsize
    have hgo := Cwffi.decodePayload_encode ⟨height, txs⟩ hcount hsize
    refine ⟨(encode_eq_encode height txs).symm, hgo, ?_⟩
    obtain ⟨r, hr, ⟨e, e', hfail, -⟩ | ⟨p, hp, rfl⟩⟩ := Ffi.Payload.decode_outcome (Cwffi.Payload.encode ⟨height, txs⟩)
    · rw [hgo] at hfail
      cases hfail
    · rw [hgo] at hp
      cases hp
      rw [encode_eq_encode, hr]
  · intro b
    obtain ⟨r, hr, hcases⟩ := Ffi.Payload.decode_outcome b
    refine ⟨Cwffi.Checked.decodePayload_eq b, r, hr, ?_⟩
    obtain ⟨e, e', hfail, rfl⟩ | ⟨p, hp, rfl⟩ := hcases
    · rw [hfail]
      trivial
    · rw [hp]
      exact ⟨rfl, heights_agree p.height⟩

/-- A negative height and two transactions, one of them empty, on both sides. -/
theorem negative_height_payload_agrees :
    Cwffi.Payload.encode ⟨-3, [[7], []]⟩ = Ffi.Payload.encode ⟨18446744073709551613, [[7], []]⟩ ∧
    Ffi.Payload.decode (Ffi.Payload.encode ⟨18446744073709551613, [[7], []]⟩) =
      .ok (.ok ⟨18446744073709551613, [[7], []]⟩) := by
  obtain ⟨hencode, -, hdecode⟩ := payload_codecs_agree.1 (-3) [[7], []] (by decide) (by decide)
  exact ⟨hencode, hdecode⟩

end Terpz.Leanval
