import Terpz.Leanval.Types.Keys

/-! Injected and mempool byte formats: LNPR proof records, JOIN and LEAV requests. -/
namespace Terpz.Leanval
open Lib Lib.BigEndian

/-- ASCII "HMVE". -/
def prefixHMVE : Bytes := [0x48, 0x4D, 0x56, 0x45]
/-- ASCII "LNPR". -/
def prefixLNPR : Bytes := [0x4C, 0x4E, 0x50, 0x52]
/-- ASCII "JOIN". -/
def prefixJOIN : Bytes := [0x4A, 0x4F, 0x49, 0x4E]
/-- ASCII "LEAV". -/
def prefixLEAV : Bytes := [0x4C, 0x45, 0x41, 0x56]

def lnprVersion : UInt8 := 1
def membershipVersion : UInt8 := 1
def maxProofBytes : Nat := 2 <<< 20
def maxRawStarksPerLNPR : Nat := 8

def hasPrefix (tx p : Bytes) : Bool := p.isPrefixOf tx

structure SubjectProof where
  subject : Bytes
  weight : Int64
  proof : Bytes
  deriving DecidableEq, Repr

structure LNPRBlob where
  period : UInt64
  subjects : List SubjectProof
  deriving DecidableEq, Repr

def encodeRow (s : SubjectProof) : Bytes :=
  let subj := s.subject.take 255
  UInt8.ofNat subj.length :: (subj ++ putI64 s.weight ++ beBytes 4 s.proof.length ++ s.proof)

def encodeLNPR (b : LNPRBlob) : Bytes :=
  prefixLNPR ++ lnprVersion :: (putU64 b.period ++ beBytes 2 b.subjects.length ++
    b.subjects.flatMap encodeRow)

def decodeRows : Nat → Bytes → Option (List SubjectProof)
  | 0, _ => some []
  | _ + 1, [] => none
  | n + 1, al :: p =>
    if p.length < al.toNat + 8 + 4 then none
    else
      let subj := p.take al.toNat
      let p := p.drop al.toNat
      let w := getI64 (p.take 8)
      let p := p.drop 8
      let pl := beNat (p.take 4)
      let p := p.drop 4
      if p.length < pl then none
      else (decodeRows n (p.drop pl)).map (⟨subj, w, p.take pl⟩ :: ·)

def decodeLNPR (tx : Bytes) : Option LNPRBlob :=
  if !hasPrefix tx prefixLNPR then none
  else
    let p := tx.drop prefixLNPR.length
    if p.length < 1 + 8 + 2 || p.head? != some lnprVersion then none
    else
      let p := p.drop 1
      let period := getU64 (p.take 8)
      let p := p.drop 8
      (decodeRows (beNat (p.take 2)) (p.drop 2)).map (⟨period, ·⟩)

structure JoinBlob where
  period : UInt64
  subject : Bytes
  weight : Int64
  proof : Bytes
  deriving DecidableEq, Repr

structure LeaveBlob where
  period : UInt64
  subject : Bytes
  deriving DecidableEq, Repr

def encodeJoin (b : JoinBlob) : Bytes :=
  let subj := b.subject.take 255
  prefixJOIN ++ membershipVersion :: (putU64 b.period ++ UInt8.ofNat subj.length ::
    (subj ++ putI64 b.weight ++ b.proof))

def encodeLeave (b : LeaveBlob) : Bytes :=
  let subj := b.subject.take 255
  prefixLEAV ++ membershipVersion :: (putU64 b.period ++ UInt8.ofNat subj.length :: subj)

/-- The header shared by JOIN and LEAV: period, declared subject length, remaining bytes. -/
def membershipHeader (tx pref : Bytes) : Option (UInt64 × Nat × Bytes) :=
  if !hasPrefix tx pref then none
  else
    let p := tx.drop pref.length
    if p.length < 1 + 8 + 1 || p.head? != some membershipVersion then none
    else
      let p := p.drop 1
      some (getU64 (p.take 8), ((p.drop 8).headD 0).toNat, p.drop 9)

def decodeJoin (tx : Bytes) : Option JoinBlob := do
  let (period, al, p) ← membershipHeader tx prefixJOIN
  if p.length < al + 8 then none
  else some ⟨period, p.take al, getI64 ((p.drop al).take 8), p.drop (al + 8)⟩

def decodeLeave (tx : Bytes) : Option LeaveBlob := do
  let (period, al, p) ← membershipHeader tx prefixLEAV
  if p.length < al then none else some ⟨period, p.take al⟩

def isMembershipTx (tx : Bytes) : Bool := hasPrefix tx prefixJOIN || hasPrefix tx prefixLEAV

def validateJoin (b : JoinBlob) : Except String Unit :=
  if b.subject.length = 0 then .error "leanval: join subject empty"
  else if b.weight ≤ 0 then .error "leanval: join weight must be > 0"
  else .ok ()

def validateLeave (b : LeaveBlob) : Except String Unit :=
  if b.subject.length = 0 then .error "leanval: leave subject empty" else .ok ()

/-- Every length field of the LNPR wire holds the length it is given. -/
structure LNPRBlob.WireFits (b : LNPRBlob) : Prop where
  rows : b.subjects.length < 2 ^ 16
  subject : ∀ s ∈ b.subjects, s.subject.length < 2 ^ 8
  proof : ∀ s ∈ b.subjects, s.proof.length < 2 ^ 32

private theorem decodeRows_encodeRow (n : Nat) (s : SubjectProof) (rest : Bytes)
    (hs : s.subject.length < 2 ^ 8) (hp : s.proof.length < 2 ^ 32) :
    decodeRows (n + 1) (encodeRow s ++ rest) = (decodeRows n rest).map (s :: ·) := by
  have htake : s.subject.take 255 = s.subject := List.take_of_length_le (by omega)
  have hal : (UInt8.ofNat s.subject.length).toNat = s.subject.length := by
    simp only [UInt8.toNat_ofNat']
    omega
  have hpl : beNat (beBytes 4 s.proof.length) = s.proof.length := by
    rw [beNat_beBytes, Nat.mod_eq_of_lt (by omega)]
  have hw : getI64 (putI64 s.weight) = s.weight := getI64_putI64 _
  simp only [encodeRow, htake, List.cons_append, decodeRows, hal, List.append_assoc,
    List.length_append, putI64_length, beBytes_length, List.drop_left, List.take_left,
    List.take_left' (putI64_length s.weight), List.drop_left' (putI64_length s.weight),
    List.take_left' (beBytes_length 4 s.proof.length), List.drop_left' (beBytes_length 4 s.proof.length),
    hpl, hw]
  rw [if_neg (by omega), if_neg (by omega)]

theorem decodeRows_encodeRows (rows : List SubjectProof) (rest : Bytes)
    (hs : ∀ s ∈ rows, s.subject.length < 2 ^ 8) (hp : ∀ s ∈ rows, s.proof.length < 2 ^ 32) :
    decodeRows rows.length (rows.flatMap encodeRow ++ rest) = some rows := by
  induction rows with
  | nil => rfl
  | cons s rows ih =>
    have hi := ih (fun t ht => hs t (List.mem_cons_of_mem _ ht)) (fun t ht => hp t (List.mem_cons_of_mem _ ht))
    rw [List.flatMap_cons, List.append_assoc, List.length_cons,
      decodeRows_encodeRow _ s _ (hs s List.mem_cons_self) (hp s List.mem_cons_self), hi]
    rfl

/-- A record that fits its wire fields is read back unchanged. -/
theorem decodeLNPR_encodeLNPR (b : LNPRBlob) (h : b.WireFits) : decodeLNPR (encodeLNPR b) = some b := by
  have hn : beNat (beBytes 2 b.subjects.length) = b.subjects.length := by
    have := h.rows
    rw [beNat_beBytes, Nat.mod_eq_of_lt (by omega)]
  have hrows := decodeRows_encodeRows b.subjects [] h.subject h.proof
  rw [List.append_nil] at hrows
  have hpre : hasPrefix (encodeLNPR b) prefixLNPR = true :=
    List.isPrefixOf_iff_prefix.mpr (List.prefix_append _ _)
  have hdrop : (encodeLNPR b).drop prefixLNPR.length =
      lnprVersion :: (putU64 b.period ++ (beBytes 2 b.subjects.length ++ b.subjects.flatMap encodeRow)) := by
    rw [← List.append_assoc]
    exact List.drop_left
  have hlen : ¬ (lnprVersion :: (putU64 b.period ++ (beBytes 2 b.subjects.length ++
      b.subjects.flatMap encodeRow))).length < 1 + 8 + 2 := by
    simp only [List.length_cons, List.length_append, putU64_length, beBytes_length]
    omega
  simp only [decodeLNPR, hpre, hdrop, hlen, Bool.not_true, List.head?_cons, bne_self_eq_false,
    decide_false, Bool.or_self, Bool.false_eq_true, if_false, List.drop_succ_cons, List.drop_zero,
    List.take_left' (putU64_length b.period), List.drop_left' (putU64_length b.period),
    List.take_left' (beBytes_length 2 b.subjects.length), List.drop_left' (beBytes_length 2 b.subjects.length),
    hn, hrows, getU64_putU64, Option.map_some]

end Terpz.Leanval
