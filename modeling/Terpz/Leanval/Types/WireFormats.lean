import Terpz.Lib.Reads
import Terpz.Leanval.Types.Ssle

/-! The injected and mempool formats as wire formats: which byte strings the decoders accept, and the decoders
once more read by read, where an index or a range outside the string stops the program. -/
namespace Terpz.Leanval
open Lib Lib.BigEndian Lib.Reads

namespace Checked

/-- The loop over the rows, with the rows read so far. -/
def decodeRows : Nat → Bytes → List SubjectProof → Reads (Option (List SubjectProof))
  | 0, _, subjects => .ok (some subjects)
  | n + 1, p, subjects =>
    if p.length < 1 then .ok none
    else do
      let al := (← index p 0).toNat
      let p ← sliceFrom p 1
      if p.length < al + 8 + 4 then pure none
      else
        let subj ← sliceTo p al
        let p ← sliceFrom p al
        let w := getI64 (← sliceTo p 8)
        let p ← sliceFrom p 8
        let b0 ← index p 0
        let b1 ← index p 1
        let b2 ← index p 2
        let b3 ← index p 3
        -- four bytes in a 64-bit int: the guard against a negative length never fires
        let pl := b0.toNat <<< 24 ||| b1.toNat <<< 16 ||| b2.toNat <<< 8 ||| b3.toNat
        let p ← sliceFrom p 4
        if p.length < pl then pure none
        else
          let proof ← sliceTo p pl
          let p ← sliceFrom p pl
          decodeRows n p (subjects ++ [⟨subj, w, proof⟩])

def decodeLNPR (tx : Bytes) : Reads (Option LNPRBlob) :=
  if !hasPrefix tx prefixLNPR then .ok none
  else do
    let p ← sliceFrom tx prefixLNPR.length
    -- the version is read only behind the length check
    if p.length < 1 + 8 + 2 then pure none
    else
      let version ← index p 0
      if version ≠ lnprVersion then pure none
      else
        let p ← sliceFrom p 1
        let period := getU64 (← sliceTo p 8)
        let p ← sliceFrom p 8
        let b0 ← index p 0
        let b1 ← index p 1
        let n := b0.toNat <<< 8 ||| b1.toNat
        let p ← sliceFrom p 2
        let subjects ← decodeRows n p []
        pure (subjects.map (⟨period, ·⟩))

/-- The header shared by JOIN and LEAV. -/
def membershipHeader (tx pref : Bytes) : Reads (Option (UInt64 × Nat × Bytes)) :=
  if !hasPrefix tx pref then .ok none
  else do
    let p ← sliceFrom tx pref.length
    if p.length < 1 + 8 + 1 then pure none
    else
      let version ← index p 0
      if version ≠ membershipVersion then pure none
      else
        let p ← sliceFrom p 1
        let period := getU64 (← sliceTo p 8)
        let p ← sliceFrom p 8
        let al := (← index p 0).toNat
        let p ← sliceFrom p 1
        pure (some (period, al, p))

def decodeJoin (tx : Bytes) : Reads (Option JoinBlob) := do
  match ← membershipHeader tx prefixJOIN with
  | none => pure none
  | some (period, al, p) =>
    if p.length < al + 8 then pure none
    else
      let subject ← sliceTo p al
      let weight := getI64 (← slice p al (al + 8))
      let proof ← if p.length > al + 8 then sliceFrom p (al + 8) else pure []
      pure (some ⟨period, subject, weight, proof⟩)

def decodeLeave (tx : Bytes) : Reads (Option LeaveBlob) := do
  match ← membershipHeader tx prefixLEAV with
  | none => pure none
  | some (period, al, p) =>
    if p.length < al then pure none
    else
      let subject ← sliceTo p al
      pure (some ⟨period, subject⟩)

/-- `binary.BigEndian.Uint64` reads the first eight bytes. -/
def uint64 (b : Bytes) : Reads UInt64 := if b.length < 8 then .error .outOfBounds else .ok (getU64 b)

def decodeSSLE (tx : Bytes) : Reads (Option SSLEBlob) :=
  if !hasPrefix tx prefixSSLE || tx.length < 4 + 8 + 8 + 32 + 1 then .ok none
  else do
    let period ← uint64 (← slice tx 4 12)
    let height := (← uint64 (← slice tx 12 20)).toInt64
    let ticket ← slice tx 20 52
    let plen := (← index tx 52).toNat
    if 53 + plen > tx.length then pure none
    else
      let proposer ← slice tx 53 (53 + plen)
      let proof ← sliceFrom tx (53 + plen)
      pure (some ⟨period, height, ticket, proposer, proof⟩)

end Checked

section Accepted
variable {tx pref p q : Bytes} {version : UInt8} {k : Nat}

private theorem hasPrefix_append (pref q : Bytes) : hasPrefix (pref ++ q) pref = true :=
  List.isPrefixOf_iff_prefix.mpr (List.prefix_append pref q)

/-- What the two checks in front of every decoder leave: the prefix, the version, and bytes enough. -/
private theorem versioned (hpre : ¬ (!hasPrefix tx pref) = true)
    (hbody : ¬ (decide ((tx.drop pref.length).length < k) || (tx.drop pref.length).head? != some version) = true) :
    ∃ q, k ≤ q.length + 1 ∧ tx = pref ++ version :: q := by
  rw [Bool.not_eq_true', Bool.not_eq_false, hasPrefix, List.isPrefixOf_iff_prefix] at hpre
  obtain ⟨q, rfl⟩ := hpre
  rw [List.drop_left] at hbody
  cases q with
  | nil => simp at hbody
  | cons v q =>
    simp only [List.length_cons, List.head?_cons, Bool.or_eq_true, decide_eq_true_eq, not_or, bne_iff_ne, ne_eq,
      Option.some.injEq, not_not, Nat.not_lt] at hbody
    obtain ⟨hlen, rfl⟩ := hbody
    exact ⟨q, hlen, rfl⟩

private theorem not_short (h : k ≤ q.length + 1) :
    ¬ (decide ((version :: q).length < k) || (version :: q).head? != some version) = true := by
  simpa using h

private theorem head_cons_drop {i : Nat} (h : i < q.length) : (q.drop i).headD 0 :: q.drop (i + 1) = q.drop i := by
  rw [List.drop_eq_getElem_cons h]
  rfl

/-- The header accepts a prefix, the version, a period, one byte of length, and whatever follows. -/
theorem membershipHeader_eq_some {period : UInt64} {al : Nat} : membershipHeader tx pref = some (period, al, p) ↔
    al < 2 ^ 8 ∧ tx = pref ++ membershipVersion :: (putU64 period ++ UInt8.ofNat al :: p) := by
  constructor
  · intro h
    unfold membershipHeader at h
    split at h
    · cases h
    · next hpre =>
      simp only at h
      split at h
      · cases h
      · next hbody =>
        obtain ⟨q, hlen, rfl⟩ := versioned hpre hbody
        simp only [List.drop_left, List.drop_succ_cons, List.drop_zero, Option.some.injEq, Prod.mk.injEq] at h
        obtain ⟨rfl, rfl, rfl⟩ := h
        refine ⟨UInt8.toNat_lt _, ?_⟩
        rw [UInt8.ofNat_toNat, head_cons_drop (by omega), putU64_getU64 (by rw [List.length_take]; omega),
          List.take_take, Nat.min_self, List.take_append_drop]
  · rintro ⟨hal, rfl⟩
    have hbyte : (UInt8.ofNat al).toNat = al := by
      rw [UInt8.toNat_ofNat']
      omega
    have hlen : 1 + 8 + 1 ≤ (putU64 period ++ UInt8.ofNat al :: p).length + 1 := by
      simp only [List.length_cons, List.length_append, putU64_length]
      omega
    have hrest : (putU64 period ++ UInt8.ofNat al :: p).drop 9 = p := by
      rw [← List.drop_drop (i := 1) (j := 8), List.drop_left' (putU64_length period)]
      rfl
    simp only [membershipHeader, hasPrefix_append, Bool.not_true, Bool.false_eq_true, if_false, List.drop_left,
      if_neg (not_short hlen), List.drop_succ_cons, List.drop_zero, hrest, List.take_left' (putU64_length period),
      List.drop_left' (putU64_length period), getU64_putU64, List.headD_cons, hbyte]

theorem decodeJoin_eq_some {b : JoinBlob} :
    decodeJoin tx = some b ↔ b.subject.length < 2 ^ 8 ∧ encodeJoin b = tx := by
  unfold decodeJoin encodeJoin
  rw [Option.bind_eq_bind, Option.bind_eq_some_iff]
  constructor
  · rintro ⟨⟨period, al, p⟩, hhead, h⟩
    obtain ⟨hal, rfl⟩ := membershipHeader_eq_some.mp hhead
    simp only at h
    split at h
    · cases h
    · next hlen =>
      cases h
      have hsubject : (p.take al).length = al := by
        rw [List.length_take]
        omega
      have hweight : putI64 (getI64 ((p.drop al).take 8)) = (p.drop al).take 8 := by
        rw [putI64_getI64 (by rw [List.length_take, List.length_drop]; omega), List.take_take, Nat.min_self]
      refine ⟨hsubject.trans_lt hal, ?_⟩
      simp only
      rw [List.take_of_length_le (by omega : (p.take al).length ≤ 255), hsubject, hweight, List.append_assoc,
        ← List.drop_drop, List.take_append_drop, List.take_append_drop]
  · rintro ⟨hlen, rfl⟩
    have htake : b.subject.take 255 = b.subject := List.take_of_length_le (by omega)
    refine ⟨(b.period, b.subject.length, b.subject ++ putI64 b.weight ++ b.proof),
      membershipHeader_eq_some.mpr ⟨hlen, by simp only [htake]⟩, ?_⟩
    have hfits : ¬ (b.subject ++ (putI64 b.weight ++ b.proof)).length < b.subject.length + 8 := by
      simp only [List.length_append, putI64_length]
      omega
    simp only [List.append_assoc, if_neg hfits, List.take_left, ← List.drop_drop, List.drop_left,
      List.take_left' (putI64_length b.weight), List.drop_left' (putI64_length b.weight), getI64_putI64]

theorem decodeLeave_eq_some {b : LeaveBlob} :
    decodeLeave tx = some b ↔ b.subject.length < 2 ^ 8 ∧ encodeLeave b <+: tx := by
  unfold decodeLeave encodeLeave
  rw [Option.bind_eq_bind, Option.bind_eq_some_iff]
  constructor
  · rintro ⟨⟨period, al, p⟩, hhead, h⟩
    obtain ⟨hal, rfl⟩ := membershipHeader_eq_some.mp hhead
    simp only at h
    split at h
    · cases h
    · next hlen =>
      cases h
      have hsubject : (p.take al).length = al := by
        rw [List.length_take]
        omega
      refine ⟨hsubject.trans_lt hal, p.drop al, ?_⟩
      simp only
      rw [List.take_of_length_le (by omega : (p.take al).length ≤ 255), hsubject]
      simp only [List.append_assoc, List.cons_append, List.take_append_drop]
  · rintro ⟨hlen, rest, rfl⟩
    have htake : b.subject.take 255 = b.subject := List.take_of_length_le (by omega)
    refine ⟨(b.period, b.subject.length, b.subject ++ rest),
      membershipHeader_eq_some.mpr ⟨hlen, by simp [htake]⟩, ?_⟩
    have hfits : ¬ (b.subject ++ rest).length < b.subject.length := by
      rw [List.length_append]
      omega
    simp only [if_neg hfits, List.take_left]

/-- A row is read from the front of the string and leaves the rest. -/
private theorem decodeRows_succ {n : Nat} {rows : List SubjectProof}
    (h : decodeRows (n + 1) p = some rows) : ∃ s rest rows', rows = s :: rows' ∧ s.subject.length < 2 ^ 8 ∧
      s.proof.length < 2 ^ 32 ∧ p = encodeRow s ++ rest ∧ decodeRows n rest = some rows' := by
  cases p with
  | nil => cases h
  | cons al p =>
    unfold decodeRows at h
    split at h
    · cases h
    · next hlen =>
      simp only at h
      split at h
      · cases h
      · next hproof =>
        obtain ⟨rows', hrest, rfl⟩ := Option.map_eq_some_iff.mp h
        have hal := al.toNat_lt
        have hsubject : (p.take al.toNat).length = al.toNat := by
          rw [List.length_take]
          omega
        have hweight : putI64 (getI64 ((p.drop al.toNat).take 8)) = (p.drop al.toNat).take 8 := by
          rw [putI64_getI64 (by rw [List.length_take, List.length_drop]; omega), List.take_take, Nat.min_self]
        have hfour : (((p.drop al.toNat).drop 8).take 4).length = 4 := by
          simp only [List.length_take, List.length_drop]
          omega
        have hbound := beNat_lt (((p.drop al.toNat).drop 8).take 4)
        rw [hfour, show 256 ^ 4 = 2 ^ 32 by norm_num] at hbound
        have hproofLen : ((((p.drop al.toNat).drop 8).drop 4).take
            (beNat (((p.drop al.toNat).drop 8).take 4))).length = beNat (((p.drop al.toNat).drop 8).take 4) := by
          rw [List.length_take]
          omega
        refine ⟨_, _, rows', rfl, hsubject.trans_lt hal, hproofLen.trans_lt hbound, ?_, hrest⟩
        simp only [encodeRow]
        rw [List.take_of_length_le (by omega : (p.take al.toNat).length ≤ 255), hsubject, hweight, hproofLen,
          beBytes_beNat_of_length hfour, UInt8.ofNat_toNat, List.cons_append]
        simp only [List.append_assoc, List.take_append_drop]

theorem decodeRows_eq_some {n : Nat} {rows : List SubjectProof} :
    decodeRows n p = some rows ↔ rows.length = n ∧ (∀ s ∈ rows, s.subject.length < 2 ^ 8) ∧
      (∀ s ∈ rows, s.proof.length < 2 ^ 32) ∧ rows.flatMap encodeRow <+: p := by
  constructor
  · intro h
    induction n generalizing p rows with
    | zero =>
      cases h
      simp
    | succ n ih =>
      obtain ⟨s, rest, rows', rfl, hs, hp, rfl, hrest⟩ := decodeRows_succ h
      obtain ⟨hlen, hsubject, hproof, hpre⟩ := ih hrest
      refine ⟨by rw [List.length_cons, hlen], List.forall_mem_cons.mpr ⟨hs, hsubject⟩,
        List.forall_mem_cons.mpr ⟨hp, hproof⟩, ?_⟩
      rw [List.flatMap_cons]
      exact (List.prefix_append_right_inj _).mpr hpre
  · rintro ⟨rfl, hs, hp, rest, rfl⟩
    exact decodeRows_encodeRows rows rest hs hp

/-- The header of a proof record: period, number of rows, remaining bytes. -/
def lnprHeader (tx : Bytes) : Option (UInt64 × Nat × Bytes) :=
  if !hasPrefix tx prefixLNPR then none
  else
    let p := tx.drop prefixLNPR.length
    if p.length < 1 + 8 + 2 || p.head? != some lnprVersion then none
    else
      let p := p.drop 1
      some (getU64 (p.take 8), beNat ((p.drop 8).take 2), p.drop 10)

theorem decodeLNPR_eq (tx : Bytes) :
    decodeLNPR tx = (lnprHeader tx).bind (fun h => (decodeRows h.2.1 h.2.2).map (⟨h.1, ·⟩)) := by
  unfold decodeLNPR lnprHeader
  split
  · rfl
  · simp only
    split
    · rfl
    · rw [Option.bind_some, ← List.drop_drop (i := 2) (j := 8)]

theorem lnprHeader_eq_some {period : UInt64} {n : Nat} : lnprHeader tx = some (period, n, p) ↔
    n < 2 ^ 16 ∧ tx = prefixLNPR ++ lnprVersion :: (putU64 period ++ (beBytes 2 n ++ p)) := by
  constructor
  · intro h
    unfold lnprHeader at h
    split at h
    · cases h
    · next hpre =>
      simp only at h
      split at h
      · cases h
      · next hbody =>
        obtain ⟨q, hlen, rfl⟩ := versioned hpre hbody
        simp only [List.drop_left, List.drop_succ_cons, List.drop_zero, Option.some.injEq, Prod.mk.injEq] at h
        obtain ⟨rfl, rfl, rfl⟩ := h
        have htwo : ((q.drop 8).take 2).length = 2 := by
          rw [List.length_take, List.length_drop]
          omega
        have hbound := beNat_lt ((q.drop 8).take 2)
        rw [htwo, show 256 ^ 2 = 2 ^ 16 by norm_num] at hbound
        refine ⟨hbound, ?_⟩
        rw [beBytes_beNat_of_length htwo, putU64_getU64 (by rw [List.length_take]; omega), List.take_take,
          Nat.min_self, ← List.drop_drop (i := 2) (j := 8), List.take_append_drop, List.take_append_drop]
  · rintro ⟨hn, rfl⟩
    have hcount : beNat (beBytes 2 n) = n := by
      rw [beNat_beBytes, Nat.mod_eq_of_lt (by omega)]
    have hlen : 1 + 8 + 2 ≤ (putU64 period ++ (beBytes 2 n ++ p)).length + 1 := by
      simp only [List.length_append, putU64_length, beBytes_length]
      omega
    have hrest : (putU64 period ++ (beBytes 2 n ++ p)).drop 10 = p := by
      rw [← List.drop_drop (i := 2) (j := 8), List.drop_left' (putU64_length period),
        List.drop_left' (beBytes_length 2 n)]
    simp only [lnprHeader, hasPrefix_append, Bool.not_true, Bool.false_eq_true, if_false, List.drop_left,
      if_neg (not_short hlen), List.drop_succ_cons, List.drop_zero, hrest, List.take_left' (putU64_length period),
      List.drop_left' (putU64_length period), getU64_putU64, List.take_left' (beBytes_length 2 n), hcount]

theorem decodeLNPR_eq_some {b : LNPRBlob} :
    decodeLNPR tx = some b ↔ b.WireFits ∧ encodeLNPR b <+: tx := by
  rw [decodeLNPR_eq]
  constructor
  · intro h
    obtain ⟨⟨period, n, p⟩, hhead, h⟩ := Option.bind_eq_some_iff.mp h
    obtain ⟨subjects, hrows, rfl⟩ := Option.map_eq_some_iff.mp h
    obtain ⟨hn, rfl⟩ := lnprHeader_eq_some.mp hhead
    obtain ⟨rfl, hsubject, hproof, rest, rfl⟩ := decodeRows_eq_some.mp hrows
    refine ⟨⟨hn, hsubject, hproof⟩, rest, ?_⟩
    simp [encodeLNPR]
  · rintro ⟨hfits, rest, rfl⟩
    have hhead : lnprHeader (encodeLNPR b ++ rest) =
        some (b.period, b.subjects.length, b.subjects.flatMap encodeRow ++ rest) :=
      lnprHeader_eq_some.mpr ⟨hfits.rows, by simp [encodeLNPR]⟩
    rw [hhead, Option.bind_some, decodeRows_encodeRows b.subjects rest hfits.subject hfits.proof]
    rfl

/-- A ticket record of at least 53 bytes: period, height, ticket, the length byte, and the rest. -/
def ssleWire (period height ticket : Bytes) (plen : UInt8) (rest : Bytes) : Bytes :=
  prefixSSLE ++ (period ++ (height ++ (ticket ++ plen :: rest)))

private theorem ssleWire_of_checks
    (h : ¬ (!hasPrefix tx prefixSSLE || decide (tx.length < 4 + 8 + 8 + 32 + 1)) = true) :
    ∃ period height ticket plen rest, period.length = 8 ∧ height.length = 8 ∧ ticket.length = 32 ∧
      tx = ssleWire period height ticket plen rest := by
  simp only [Bool.or_eq_true, Bool.not_eq_true', decide_eq_true_eq, not_or, Bool.not_eq_false, Nat.not_lt] at h
  obtain ⟨hpre, hlen⟩ := h
  obtain ⟨q, rfl⟩ := List.isPrefixOf_iff_prefix.mp hpre
  rw [List.length_append, show prefixSSLE.length = 4 from rfl] at hlen
  refine ⟨q.take 8, (q.drop 8).take 8, (q.drop 16).take 32, (q.drop 48).headD 0, q.drop 49, ?_, ?_, ?_, ?_⟩
  · rw [List.length_take]
    omega
  · rw [List.length_take, List.length_drop]
    omega
  · rw [List.length_take, List.length_drop]
    omega
  · rw [ssleWire, head_cons_drop (by omega), ← List.drop_drop (i := 32) (j := 16), List.take_append_drop,
      ← List.drop_drop (i := 8) (j := 8), List.take_append_drop, List.take_append_drop]

section Ssle
variable {period height ticket rest : Bytes} {plen : UInt8}

private theorem ssleWire_length (plen : UInt8) (rest : Bytes) (hp : period.length = 8) (hh : height.length = 8)
    (ht : ticket.length = 32) :
    (ssleWire period height ticket plen rest).length = 53 + rest.length := by
  simp only [ssleWire, List.length_append, List.length_cons, hp, hh, ht, show prefixSSLE.length = 4 from rfl]
  omega

private theorem ssleWire_drop (plen : UInt8) (rest : Bytes) (hp : period.length = 8) (hh : height.length = 8)
    (ht : ticket.length = 32) :
    (ssleWire period height ticket plen rest).drop 4 = period ++ (height ++ (ticket ++ plen :: rest)) ∧
    (ssleWire period height ticket plen rest).drop 12 = height ++ (ticket ++ plen :: rest) ∧
    (ssleWire period height ticket plen rest).drop 20 = ticket ++ plen :: rest ∧
    (ssleWire period height ticket plen rest).drop 52 = plen :: rest ∧
    ∀ i, (ssleWire period height ticket plen rest).drop (53 + i) = rest.drop i := by
  have h4 : (ssleWire period height ticket plen rest).drop 4 = period ++ (height ++ (ticket ++ plen :: rest)) := rfl
  have h12 : (ssleWire period height ticket plen rest).drop 12 = height ++ (ticket ++ plen :: rest) := by
    rw [← List.drop_drop (i := 8) (j := 4), h4, List.drop_left' hp]
  have h20 : (ssleWire period height ticket plen rest).drop 20 = ticket ++ plen :: rest := by
    rw [← List.drop_drop (i := 8) (j := 12), h12, List.drop_left' hh]
  have h52 : (ssleWire period height ticket plen rest).drop 52 = plen :: rest := by
    rw [← List.drop_drop (i := 32) (j := 20), h20, List.drop_left' ht]
  refine ⟨h4, h12, h20, h52, fun i => ?_⟩
  rw [← List.drop_drop, ← List.drop_drop (i := 1) (j := 52), h52]
  rfl

private theorem ssleWire_byte (hp : period.length = 8) (hh : height.length = 8) (ht : ticket.length = 32) :
    (ssleWire period height ticket plen rest)[52]? = some plen := by
  rw [← List.head?_drop, (ssleWire_drop plen rest hp hh ht).2.2.2.1]
  rfl

private theorem not_short_ssleWire (hp : period.length = 8) (hh : height.length = 8) (ht : ticket.length = 32) :
    ¬ (!hasPrefix (ssleWire period height ticket plen rest) prefixSSLE ||
      decide ((ssleWire period height ticket plen rest).length < 4 + 8 + 8 + 32 + 1)) = true := by
  have hpre : hasPrefix (ssleWire period height ticket plen rest) prefixSSLE = true := hasPrefix_append _ _
  simp [hpre, ssleWire_length plen rest hp hh ht]

theorem decodeSSLE_ssleWire (hp : period.length = 8) (hh : height.length = 8) (ht : ticket.length = 32) :
    decodeSSLE (ssleWire period height ticket plen rest) =
      if rest.length < plen.toNat then none
      else some ⟨getU64 period, (getU64 height).toInt64, ticket, rest.take plen.toNat, rest.drop plen.toNat⟩ := by
  obtain ⟨h4, h12, h20, -, hrest⟩ := ssleWire_drop plen rest hp hh ht
  have hbyte : (ssleWire period height ticket plen rest).getD 52 0 = plen := by
    rw [List.getD_eq_getElem?_getD, ssleWire_byte hp hh ht]
    rfl
  unfold decodeSSLE
  rw [if_neg (not_short_ssleWire hp hh ht)]
  simp only [hbyte, ssleWire_length plen rest hp hh ht, gt_iff_lt, Nat.add_lt_add_iff_left, h4, h12, h20, hrest,
    List.take_left' hp, List.take_left' hh, List.take_left' ht]
  rw [show (ssleWire period height ticket plen rest).drop 53 = rest from hrest 0]

theorem Checked.decodeSSLE_ssleWire (hp : period.length = 8) (hh : height.length = 8) (ht : ticket.length = 32) :
    Checked.decodeSSLE (ssleWire period height ticket plen rest) = .ok (if rest.length < plen.toNat then none
      else some ⟨getU64 period, (getU64 height).toInt64, ticket, rest.take plen.toNat, rest.drop plen.toNat⟩) := by
  obtain ⟨h4, h12, h20, -, hrest⟩ := ssleWire_drop plen rest hp hh ht
  have hlen := ssleWire_length plen rest hp hh ht
  have hindex : index (ssleWire period height ticket plen rest) 52 = .ok plen := by
    rw [index, ssleWire_byte hp hh ht]
  have huint : ∀ {b : Bytes}, b.length = 8 → Checked.uint64 b = .ok (getU64 b) := fun hb => if_neg (by omega)
  unfold Checked.decodeSSLE
  rw [if_neg (not_short_ssleWire hp hh ht), slice_eq (by omega) (by omega), slice_eq (by omega) (by omega),
    slice_eq (by omega) (by omega), hindex]
  simp only [ok_bind, h4, h12, h20, hlen, gt_iff_lt, Nat.add_lt_add_iff_left, Nat.reduceSub,
    List.take_left' hp, List.take_left' hh, List.take_left' ht, huint hp, huint hh]
  split
  · rfl
  · rw [slice_eq (by omega) (by omega), sliceFrom_eq (by omega), hrest]
    simp only [ok_bind, Nat.add_sub_cancel_left]
    rw [show (ssleWire period height ticket plen rest).drop 53 = rest from hrest 0]
    rfl

end Ssle

theorem decodeSSLE_eq_some {b : SSLEBlob} : decodeSSLE tx = some b ↔
    (b.ticket.length = 32 ∧ b.proposer.length < 2 ^ 8) ∧ encodeSSLE b = tx := by
  constructor
  · intro h
    by_cases hshort : (!hasPrefix tx prefixSSLE || decide (tx.length < 4 + 8 + 8 + 32 + 1)) = true
    · rw [decodeSSLE, if_pos hshort] at h
      cases h
    · obtain ⟨period, height, ticket, plen, rest, hp, hh, ht, rfl⟩ := ssleWire_of_checks hshort
      rw [decodeSSLE_ssleWire hp hh ht] at h
      split at h
      · cases h
      · next hrest =>
        cases h
        have hplen := plen.toNat_lt
        have hproposer : (rest.take plen.toNat).length = plen.toNat := by
          rw [List.length_take]
          omega
        refine ⟨⟨ht, hproposer.trans_lt hplen⟩, ?_⟩
        simp only [encodeSSLE]
        rw [List.take_of_length_le (by omega : (rest.take plen.toNat).length ≤ 255), hproposer, UInt8.ofNat_toNat,
          List.take_append_drop, UInt64.toUInt64_toInt64, putU64_getU64 hp.ge, putU64_getU64 hh.ge,
          List.take_of_length_le hp.le, List.take_of_length_le hh.le, List.take_of_length_le ht.le, ht]
        simp [ssleWire]
  · rintro ⟨⟨hticket, hproposer⟩, rfl⟩
    have hcut : b.proposer.take 255 = b.proposer := List.take_of_length_le (by omega)
    have hbyte : (UInt8.ofNat b.proposer.length).toNat = b.proposer.length := by
      rw [UInt8.toNat_ofNat']
      omega
    have hwire : encodeSSLE b = ssleWire (putU64 b.period) (putU64 b.height.toUInt64) b.ticket
        (UInt8.ofNat b.proposer.length) (b.proposer ++ b.proof) := by
      simp [encodeSSLE, ssleWire, hcut, hticket, List.take_of_length_le hticket.le]
    rw [hwire, decodeSSLE_ssleWire (putU64_length _) (putU64_length _) hticket, hbyte, List.take_left, List.drop_left,
      getU64_putU64, getU64_putU64, if_neg (by rw [List.length_append]; omega)]
    simp

end Accepted

namespace Checked

private theorem four_bytes {p : Bytes} (h : 4 ≤ p.length) : ∃ a b c d r, p = a :: b :: c :: d :: r := by
  match p, h with
  | a :: b :: c :: d :: r, _ => exact ⟨a, b, c, d, r, rfl⟩

private theorem two_bytes {p : Bytes} (h : 2 ≤ p.length) : ∃ a b r, p = a :: b :: r := by
  match p, h with
  | a :: b :: r, _ => exact ⟨a, b, r, rfl⟩

/-- A row is read inside what the length checks left. -/
theorem decodeRows_eq (n : Nat) (p : Bytes) (subjects : List SubjectProof) :
    decodeRows n p subjects = .ok ((Leanval.decodeRows n p).map (subjects ++ ·)) := by
  induction n generalizing p subjects with
  | zero => simp [decodeRows, Leanval.decodeRows]
  | succ n ih =>
    cases p with
    | nil => rfl
    | cons al p =>
      have hfrom : sliceFrom (al :: p) 1 = .ok p := sliceFrom_eq (by simp)
      rw [decodeRows, if_neg (by simp), index_zero_cons, ok_bind, hfrom, ok_bind, Leanval.decodeRows]
      by_cases hlen : p.length < al.toNat + 8 + 4
      · rw [if_pos hlen, if_pos hlen]
        rfl
      · have hdrop : (p.drop al.toNat).length = p.length - al.toNat := List.length_drop
        have hdrop' : ((p.drop al.toNat).drop 8).length = p.length - al.toNat - 8 := by
          rw [List.length_drop, hdrop]
        rw [if_neg hlen, if_neg hlen, sliceTo_eq (by omega), ok_bind, sliceFrom_eq (by omega), ok_bind,
          sliceTo_eq (by omega), ok_bind, sliceFrom_eq (by omega), ok_bind]
        obtain ⟨a, b, c, d, r, hr⟩ := four_bytes (p := (p.drop al.toNat).drop 8) (by omega)
        have hword : ((p.drop al.toNat).drop 8).take 4 = [a, b, c, d] := by
          rw [hr]
          rfl
        simp only [hword, beNat_quad]
        rw [hr]
        simp only [index, List.getElem?_cons_zero, List.getElem?_cons_succ, ok_bind,
          sliceFrom_eq (show 4 ≤ (a :: b :: c :: d :: r).length by simp), List.drop_succ_cons, List.drop_zero]
        split
        · rfl
        · rw [sliceTo_eq (by omega), ok_bind, sliceFrom_eq (by omega), ok_bind, ih, Option.map_map]
          simp [Function.comp_def]

/-- The two checks in front of a decoder, and what it does with the bytes behind them. -/
private theorem versioned_read {α : Type} (tx pref : Bytes) (version : UInt8) (k : Nat) (hk : 1 ≤ k)
    (result : Bytes → Option α) {body : Bytes → Reads (Option α)}
    (hbody : ∀ q, k ≤ q.length + 1 → body (version :: q) = .ok (result (version :: q))) :
    (if !hasPrefix tx pref then .ok none
      else do
        let p ← sliceFrom tx pref.length
        if p.length < k then pure none
        else
          let v ← index p 0
          if v ≠ version then pure none else body p : Reads (Option α)) =
    .ok (if !hasPrefix tx pref then none
      else if (tx.drop pref.length).length < k || (tx.drop pref.length).head? != some version then none
      else result (tx.drop pref.length)) := by
  by_cases hpre : (!hasPrefix tx pref) = true
  · rw [if_pos hpre, if_pos hpre]
  · rw [if_neg hpre, if_neg hpre]
    rw [Bool.not_eq_true', Bool.not_eq_false, hasPrefix, List.isPrefixOf_iff_prefix] at hpre
    obtain ⟨q, rfl⟩ := hpre
    rw [sliceFrom_eq (by rw [List.length_append]; omega), ok_bind, List.drop_left]
    cases q with
    | nil => simp [show 0 < k from hk]
    | cons v q =>
      by_cases hlen : q.length + 1 < k
      · simp [hlen]
      · by_cases hv : v = version
        · subst hv
          rw [List.length_cons, if_neg hlen, index_zero_cons, ok_bind, if_neg (not_not.mpr rfl),
            hbody q (Nat.not_lt.mp hlen)]
          simp [hlen]
        · simp [hlen, hv]

theorem membershipHeader_eq (tx pref : Bytes) :
    membershipHeader tx pref = .ok (Leanval.membershipHeader tx pref) := by
  unfold membershipHeader Leanval.membershipHeader
  refine versioned_read tx pref membershipVersion (1 + 8 + 1) (by omega)
    (fun p => some (getU64 ((p.drop 1).take 8), (((p.drop 1).drop 8).headD 0).toNat, (p.drop 1).drop 9))
    (fun q hq => ?_)
  rw [sliceFrom_eq (by simp), ok_bind]
  simp only [List.drop_succ_cons, List.drop_zero]
  rw [sliceTo_eq (by omega), ok_bind, sliceFrom_eq (by omega), ok_bind,
    index_eq 0 (by rw [List.length_drop]; omega), ok_bind, sliceFrom_eq (by rw [List.length_drop]; omega), ok_bind,
    List.drop_drop]
  simp

theorem decodeLNPR_eq (tx : Bytes) : decodeLNPR tx = .ok (Leanval.decodeLNPR tx) := by
  unfold decodeLNPR Leanval.decodeLNPR
  refine versioned_read tx prefixLNPR lnprVersion (1 + 8 + 2) (by omega)
    (fun p => (Leanval.decodeRows (beNat (((p.drop 1).drop 8).take 2)) (((p.drop 1).drop 8).drop 2)).map
      (LNPRBlob.mk (getU64 ((p.drop 1).take 8)))) (fun q hq => ?_)
  rw [sliceFrom_eq (by simp), ok_bind]
  simp only [List.drop_succ_cons, List.drop_zero]
  rw [sliceTo_eq (by omega), ok_bind, sliceFrom_eq (by omega), ok_bind]
  obtain ⟨a, b, r, hr⟩ := two_bytes (p := q.drop 8) (by rw [List.length_drop]; omega)
  rw [hr]
  simp only [index, List.getElem?_cons_zero, List.getElem?_cons_succ, ok_bind,
    sliceFrom_eq (show 2 ≤ (a :: b :: r).length by simp), List.drop_succ_cons, List.drop_zero, decodeRows_eq,
    List.take_succ_cons, List.take_zero, beNat_pair, List.nil_append, Option.map_id']
  rfl

theorem decodeJoin_eq (tx : Bytes) : decodeJoin tx = .ok (Leanval.decodeJoin tx) := by
  unfold decodeJoin Leanval.decodeJoin
  rw [membershipHeader_eq, ok_bind]
  cases Leanval.membershipHeader tx prefixJOIN with
  | none => rfl
  | some header =>
    obtain ⟨period, al, p⟩ := header
    rw [Option.bind_eq_bind, Option.bind_some]
    simp only
    split
    · rfl
    · next hlen =>
      rw [sliceTo_eq (by omega), ok_bind, slice_eq (by omega) (by omega), ok_bind, Nat.add_sub_cancel_left]
      split
      · rw [sliceFrom_eq (by omega)]
        rfl
      · rw [List.drop_of_length_le (by omega : p.length ≤ al + 8)]
        rfl

theorem decodeLeave_eq (tx : Bytes) : decodeLeave tx = .ok (Leanval.decodeLeave tx) := by
  unfold decodeLeave Leanval.decodeLeave
  rw [membershipHeader_eq, ok_bind]
  cases Leanval.membershipHeader tx prefixLEAV with
  | none => rfl
  | some header =>
    obtain ⟨period, al, p⟩ := header
    rw [Option.bind_eq_bind, Option.bind_some]
    simp only
    split
    · rfl
    · next hlen =>
      rw [sliceTo_eq (by omega)]
      rfl

theorem decodeSSLE_eq (tx : Bytes) : decodeSSLE tx = .ok (Leanval.decodeSSLE tx) := by
  by_cases hshort : (!hasPrefix tx prefixSSLE || decide (tx.length < 4 + 8 + 8 + 32 + 1)) = true
  · rw [decodeSSLE, Leanval.decodeSSLE, if_pos hshort, if_pos hshort]
  · obtain ⟨period, height, ticket, plen, rest, hp, hh, ht, rfl⟩ := ssleWire_of_checks hshort
    rw [Checked.decodeSSLE_ssleWire hp hh ht, Leanval.decodeSSLE_ssleWire hp hh ht]

end Checked

/-- The four injected and mempool formats read back what they write, accept nothing but what they write with
bytes behind it, and never read outside the string. -/
theorem inject_formats_lawful :
    WireFormat LNPRBlob.WireFits encodeLNPR decodeLNPR Checked.decodeLNPR ∧
    WireFormat (fun b => b.subject.length ≤ 255) encodeJoin decodeJoin Checked.decodeJoin ∧
    WireFormat (fun b => b.subject.length ≤ 255) encodeLeave decodeLeave Checked.decodeLeave ∧
    WireFormat (fun b => b.ticket.length = 32 ∧ b.proposer.length ≤ 255) encodeSSLE decodeSSLE
      Checked.decodeSSLE := by
  refine ⟨⟨?_, ?_, Checked.decodeLNPR_eq⟩, ⟨?_, ?_, Checked.decodeJoin_eq⟩, ⟨?_, ?_, Checked.decodeLeave_eq⟩,
    ⟨?_, ?_, Checked.decodeSSLE_eq⟩⟩
  · exact fun b hb => decodeLNPR_eq_some.mpr ⟨hb, List.prefix_rfl⟩
  · exact fun h => (decodeLNPR_eq_some.mp h).2
  · exact fun b hb => decodeJoin_eq_some.mpr ⟨Nat.lt_succ_of_le hb, rfl⟩
  · exact fun h => (decodeJoin_eq_some.mp h).2 ▸ List.prefix_rfl
  · exact fun b hb => decodeLeave_eq_some.mpr ⟨Nat.lt_succ_of_le hb, List.prefix_rfl⟩
  · exact fun h => (decodeLeave_eq_some.mp h).2
  · exact fun b hb => decodeSSLE_eq_some.mpr ⟨⟨hb.1, Nat.lt_succ_of_le hb.2⟩, rfl⟩
  · exact fun h => (decodeSSLE_eq_some.mp h).2 ▸ List.prefix_rfl

/-- A proof record of one row and a ticket without a proposer are read back from their wire. -/
theorem one_row_and_ticket_read_back :
    decodeLNPR (encodeLNPR ⟨7, [⟨[1, 2], -5, [9, 9, 9]⟩]⟩) = some ⟨7, [⟨[1, 2], -5, [9, 9, 9]⟩]⟩ ∧
    decodeSSLE (encodeSSLE ⟨1, -2, List.replicate 32 4, [], [8]⟩) = some ⟨1, -2, List.replicate 32 4, [], [8]⟩ :=
  ⟨inject_formats_lawful.1.decode_encode _ ⟨by decide, by decide, by decide⟩,
    inject_formats_lawful.2.2.2.decode_encode _ ⟨by decide, by decide⟩⟩

end Terpz.Leanval
