import Terpz.Leanval.Cwffi.Rpc
import Terpz.Leanval.PayloadCodecs

/-! A node that catches up from another one. Its three requests for a height are answered at three moments of the
server's run; it applies what it has when they are through. It copies blocks of the server and nothing else, and it does
not pass a block whose answers are too long to be read. -/
namespace Terpz.Leanval.Cwffi
open Lib Function

/-- The server, the node behind it and the fetch that is under way. -/
structure Pair (σ τ : Type) where
  server : Node σ
  follower : Node τ
  fetch : Option Fetch

inductive PairEvent where
  | server (now : Int) (c : Call)
  | follower (now : Int) (c : Call)
  | begin
  /-- The next path is asked; the answer may be lost. -/
  | get (delivered : Bool)
  | apply (now : Int)

section
variable {σ τ : Type} (app : EngineApp σ) (app' : EngineApp τ)

/-- The height that a round of the loop asks for. -/
def Node.wanted (n : Node τ) : Int64 := if n.height app' + 1 < 1 then 1 else n.height app' + 1

def Pair.get (p : Pair σ τ) (f : Fetch) (delivered : Bool) : Fetch :=
  match f.left with
  | [] => f
  | u :: _ => f.answer (if delivered then (serve app p.server f.height u).read else none)

def Pair.beginRound (p : Pair σ τ) : Pair σ τ :=
  match p.fetch with
  | none => { p with fetch := some (.start (p.follower.wanted app')) }
  | some _ => p

def Pair.ask (p : Pair σ τ) (delivered : Bool) : Pair σ τ :=
  match p.fetch with
  | none => p
  | some f => if f.complete then p else { p with fetch := some (p.get app f delivered) }

/-- The end of a round: a payload and a certificate are applied, and less is dropped. -/
def Pair.endRound (p : Pair σ τ) (now : Int) : Pair σ τ :=
  match p.fetch with
  | none => p
  | some f =>
    if f.complete then
      { p with
        follower := if f.payload.length > 0 ∧ f.cert.length > 0 then
          nodeStep app' p.follower (now, .applyRemote f.payload f.cert) else p.follower
        fetch := none }
    else p

def Pair.step (p : Pair σ τ) : PairEvent → Pair σ τ
  | .server now c => { p with server := nodeStep app p.server (now, c) }
  | .follower now c => { p with follower := nodeStep app' p.follower (now, c) }
  | .begin => p.beginRound app'
  | .get delivered => p.ask app delivered
  | .apply now => p.endRound app' now

/-- The server's blocks come with certificates, its heights are in range, and the follower's only blocks are those it
fetches. -/
def Pair.Follows (p : Pair σ τ) : PairEvent → Prop
  | .server _ c => p.server.driver.next < Int64.maxValue ∧ ∀ blk, c.block = some blk → blk.cert ≠ []
  | .follower _ c => c.block = none
  | _ => True

end

section Served
variable {σ : Type}

/-- A chain that can be served: below the next height, in place, and with certificates. -/
structure Driver.Served (d : Driver σ) : Prop where
  positive : 0 < d.next
  table : ∀ h blk, d.committed h = some blk →
    0 < h ∧ h < d.next ∧ blk.cert ≠ [] ∧ ∃ p, decodePayload blk.payload = .ok p ∧ p.height = h

private theorem lt_succ_of_lt_max {h : Int64} (hmax : h < Int64.maxValue) : h < h + 1 := by
  rw [Int64.lt_iff_toInt_lt, toInt_succ hmax]
  omega

/-- A call keeps the chain servable, and what is in it stays. -/
theorem served_step (app : EngineApp σ) {n : Node σ} {c : Int × Call} (hn : n.driver.Served)
    (hmax : n.driver.next < Int64.maxValue) (hcert : ∀ blk, c.2.block = some blk → blk.cert ≠ []) :
    (nodeStep app n c).driver.Served ∧
      ∀ h blk, n.driver.committed h = some blk → (nodeStep app n c).driver.committed h = some blk := by
  rcases @call_commits _ app n c with ⟨-, hsame, -⟩ | ⟨h, blk, hone, hheight, hnext, hcom⟩
  · rw [hsame.committed]
    refine ⟨⟨by rw [hsame.next]; exact hn.positive, ?_⟩, fun _ _ hb => hb⟩
    rw [hsame.committed, hsame.next]
    exact hn.table
  · obtain rfl := hheight hn.positive
    have hsucc := lt_succ_of_lt_max hmax
    obtain ⟨hblock, p, hdecode, hp, -⟩ := mem_commits (hone ▸ List.mem_singleton_self (n.driver.next, blk))
    refine ⟨⟨by rw [hnext]; exact Int64.lt_trans hn.positive hsucc, fun h' blk' hb => ?_⟩, fun h' blk' hb => ?_⟩
    · rw [hcom, update_apply] at hb
      rw [hnext]
      split at hb
      · next heq =>
        obtain rfl := Option.some.inj hb
        subst heq
        exact ⟨hn.positive, hsucc, hcert blk hblock, p, hdecode, hp⟩
      · obtain ⟨hpos, hlt, hrest⟩ := hn.table h' blk' hb
        exact ⟨hpos, Int64.lt_trans hlt hsucc, hrest⟩
    · obtain ⟨-, hlt, -⟩ := hn.table h' blk' hb
      rw [hcom, update_of_ne (fun heq => ?_)]
      · exact hb
      · rw [heq] at hlt
        exact Int64.lt_irrefl hlt

end Served

section Answers

theorem scanHeight_signedDecimal (n : Int) : scanHeight (signedDecimal n) = n := by
  unfold signedDecimal
  by_cases hn : n < 0
  · rw [if_pos hn]
    change -(ofDecimal (decimal n.natAbs) : Int) = n
    rw [ofDecimal_decimal]
    omega
  · rw [if_neg hn]
    have hscan : scanHeight (decimal n.natAbs) = ofDecimal (decimal n.natAbs) := by
      unfold scanHeight
      split
      · next t heq =>
        have hdigit := digit_of_mem_decimal (n := n.natAbs) (b := 45) (by rw [heq]; exact List.mem_cons_self)
        exact absurd hdigit.1 (by decide)
      · rfl
    rw [hscan, ofDecimal_decimal]
    omega

theorem field64_eq (b : Bytes) : field64 b = Base64.encode b := by
  unfold field64
  split
  · rfl
  · next h => rw [List.length_eq_zero_iff.mp (by omega : b.length = 0)]; rfl

/-- What is read from an answer for the height that was asked. -/
theorem decode_own_height {r : Response} {h : Int64} {payload cert : Bytes}
    (hheight : r.heightText = signedDecimal h.toInt) (hp : r.payloadText = Base64.encode payload)
      (hc : r.certificateText = Base64.encode cert) :
    decodeCatchupPayload r h = (if (decodePayload payload).isOk then payload else [], cert) := by
  unfold decodeCatchupPayload
  rw [hheight, scanHeight_signedDecimal, hp, hc, Base64.decode_encode, Base64.decode_encode]
  exact if_neg (fun hne => hne.2.2 rfl)

variable {σ : Type} {app : EngineApp σ} {n : Node σ} {h : Int64}

private theorem payloadAt_positive (hpos : 0 < h) : n.driver.payloadAt h =
    (((n.driver.committed h).map (·.payload)).getD [], h,
      ((n.driver.committed h).map (·.cert)).getD n.driver.lastCertRaw) := by
  have h0 : (0 : Int64).toInt = 0 := rfl
  have h1 : (1 : Int64).toInt = 1 := rfl
  have hpos := Int64.lt_iff_toInt_lt.mp hpos
  have hle : ¬ h ≤ 0 := by
    rw [Int64.le_iff_toInt_le]
    omega
  have hlt : ¬ h < 1 := by
    rw [Int64.lt_iff_toInt_lt]
    omega
  simp only [Driver.payloadAt, if_neg hle, if_neg hlt]
  cases n.driver.committed h <;> rfl

/-- The payload that an answer for a served height carries. -/
def Url.payloadOf (blk : CommittedBlock) : Url → Bytes
  | .certificate => []
  | _ => blk.payload

private theorem ne_nil_of_decode {b : Bytes} {p : Payload} (hp : decodePayload b = .ok p) : b ≠ [] := by
  rintro rfl
  cases hp

private theorem zero_ne_of_pos (hpos : 0 < h) : h ≠ 0 := by
  rintro rfl
  exact Int64.lt_irrefl hpos

/-- The texts in an answer about a block of the chain. -/
theorem serve_committed (app : EngineApp σ) (hn : n.driver.Served) {blk : CommittedBlock}
    (hb : n.driver.committed h = some blk) (u : Url) :
    (serve app n h u).heightText = signedDecimal h.toInt ∧
    (serve app n h u).payloadText = Base64.encode (u.payloadOf blk) ∧
    (serve app n h u).certificateText = Base64.encode blk.cert := by
  obtain ⟨hpos, -, hcert, p, hp, -⟩ := hn.table h blk hb
  have hat : n.driver.payloadAt h = (blk.payload, h, blk.cert) := by
    rw [payloadAt_positive hpos, hb]
    rfl
  cases u with
  | certificate =>
    have hlen : blk.cert.length ≠ 0 := fun hzero => hcert (List.length_eq_zero_iff.mp hzero)
    refine ⟨?_, rfl, ?_⟩
    · simp only [serve, certificateResult, hat, Response.heightText]
    · simp only [serve, certificateResult, hat, Response.certificateText, field64_eq, if_neg hlen]
  | payload =>
    refine ⟨?_, ?_, ?_⟩
    · simp only [serve, payloadResult, hat, Response.heightText]
    · simp only [serve, payloadResult, hat, Response.payloadText, field64_eq, Url.payloadOf]
    · simp only [serve, payloadResult, hat, Response.certificateText, field64_eq]
  | block =>
    have hne : Base64.encode blk.payload ≠ [] := fun hnil => ne_nil_of_decode hp (Base64.encode_eq_nil.mp hnil)
    refine ⟨?_, ?_, ?_⟩
    · simp only [serve, blockResult, hat, if_neg (zero_ne_of_pos hpos), Response.heightText]
    · simp only [serve, blockResult, hat, if_neg (zero_ne_of_pos hpos), Response.payloadText, field64_eq, if_neg hne,
        Url.payloadOf]
    · simp only [serve, blockResult, hat, if_neg (zero_ne_of_pos hpos), Response.certificateText, field64_eq]

/-- Every answer about a block of the chain is read as that block's own payload, if it has one, and certificate. -/
theorem decode_serve_committed (app : EngineApp σ) (hn : n.driver.Served) {blk : CommittedBlock}
    (hb : n.driver.committed h = some blk)
    (u : Url) : decodeCatchupPayload (serve app n h u) h = (u.payloadOf blk, blk.cert) := by
  obtain ⟨hheight, hpayload, hcert⟩ := serve_committed app hn hb u
  obtain ⟨-, -, -, p, hp, -⟩ := hn.table h blk hb
  rw [decode_own_height hheight hpayload hcert]
  cases u with
  | certificate => rfl
  | payload | block =>
    have hok : (decodePayload blk.payload).isOk = true := by
      rw [hp]
      rfl
    simp only [Url.payloadOf, hok, if_true]

/-- No answer about a height that is not in the chain carries a payload. -/
theorem decode_serve_unknown (app : EngineApp σ) (hpos : 0 < h) (hb : n.driver.committed h = none) (u : Url) :
    (decodeCatchupPayload (serve app n h u) h).1 = [] := by
  have hat : n.driver.payloadAt h = ([], h, n.driver.lastCertRaw) := by
    rw [payloadAt_positive hpos, hb]
    rfl
  cases u with
  | certificate =>
    rw [@decode_own_height _ _ [] n.driver.lastCertRaw ?_ rfl ?_]
    · rfl
    · simp only [serve, certificateResult, hat, Response.heightText]
    · simp only [serve, certificateResult, hat, Response.certificateText, field64_eq, ite_self]
  | payload =>
    rw [@decode_own_height _ _ [] n.driver.lastCertRaw ?_ ?_ ?_]
    · rfl
    · simp only [serve, payloadResult, hat, Response.heightText]
    · simp only [serve, payloadResult, hat, Response.payloadText, field64_eq]
    · simp only [serve, payloadResult, hat, Response.certificateText, field64_eq]
  | block =>
    rw [@decode_own_height _ _ [] n.driver.lastCertRaw ?_ ?_ ?_]
    · rfl
    · simp only [serve, blockResult, hat, if_neg (zero_ne_of_pos hpos), Response.heightText]
    · simp only [serve, blockResult, hat, if_neg (zero_ne_of_pos hpos), Response.payloadText, field64_eq]
      rfl
    · simp only [serve, blockResult, hat, if_neg (zero_ne_of_pos hpos), Response.certificateText, field64_eq]

end Answers

section Fetching
variable {σ τ : Type} {app : EngineApp σ} {app' : EngineApp τ}

/-- A fetch that holds a payload holds the block of its height. -/
structure Fetch.Of (f : Fetch) (d : Driver σ) : Prop where
  positive : 0 < f.height
  block : f.payload ≠ [] → d.committed f.height = some ⟨f.payload, f.cert⟩

theorem Fetch.Of.answer {f : Fetch} {n : Node σ} (hf : f.Of n.driver) (hn : n.driver.Served) (u : Url) :
    (f.answer (some (serve app n f.height u))).Of n.driver := by
  refine ⟨hf.positive, fun hne => ?_⟩
  cases hb : n.driver.committed f.height with
  | none =>
    have hp := decode_serve_unknown app hf.positive hb u
    have hnone : f.payload ≠ [] := by
      simpa only [Fetch.answer, hp, List.length_nil, gt_iff_lt, Nat.lt_irrefl, if_false] using hne
    rw [hf.block hnone] at hb
    cases hb
  | some blk =>
    have hread := decode_serve_committed app hn hb u
    obtain ⟨-, -, hcert, p, hp, -⟩ := hn.table _ blk hb
    have hclen : blk.cert.length > 0 := List.length_pos_of_ne_nil hcert
    have hplen : blk.payload.length > 0 := List.length_pos_of_ne_nil (ne_nil_of_decode hp)
    simp only [Fetch.answer, hread, hclen, if_true] at hne ⊢
    cases u with
    | certificate =>
      have hfirst := hf.block (by simpa [Url.payloadOf] using hne)
      rw [hb] at hfirst
      obtain rfl := Option.some.inj hfirst
      exact hb
    | payload | block =>
      simp only [Url.payloadOf, hplen, if_true] at hb ⊢
      exact hb

theorem Fetch.Of.lost {f : Fetch} {d : Driver σ} (hf : f.Of d) : (f.answer none).Of d := ⟨hf.positive, hf.block⟩

theorem Fetch.Of.mono {f : Fetch} {d d' : Driver σ} (hf : f.Of d)
    (h : ∀ height blk, d.committed height = some blk → d'.committed height = some blk) : f.Of d' :=
  ⟨hf.positive, fun hne => h _ _ (hf.block hne)⟩

/-- The answer to a request, if it is delivered and can be read. -/
def Node.reply (app : EngineApp σ) (n : Node σ) (height : Int64) (u : Url) (delivered : Bool) : Option Response :=
  if delivered then (serve app n height u).read else none

theorem Fetch.Of.reply (app : EngineApp σ) {f : Fetch} {n : Node σ} (hf : f.Of n.driver) (hn : n.driver.Served)
    (u : Url) (delivered : Bool) :
    (f.answer (n.reply app f.height u delivered)).Of n.driver := by
  unfold Node.reply
  split
  · unfold Response.read
    split
    · exact hf.answer hn u
    · exact hf.lost
  · exact hf.lost

theorem Fetch.Of.get {p : Pair σ τ} {f : Fetch} (hf : f.Of p.server.driver) (hn : p.server.driver.Served)
    (delivered : Bool) : (p.get app f delivered).Of p.server.driver := by
  unfold Pair.get
  split
  · exact hf
  · exact hf.reply app hn _ delivered

private theorem wanted_positive (n : Node τ) : 0 < n.wanted app' := by
  unfold Node.wanted
  split
  · decide
  · next hge =>
    have h0 : (0 : Int64).toInt = 0 := rfl
    have h1 : (1 : Int64).toInt = 1 := rfl
    have hge := Int64.le_iff_toInt_le.mp (Int64.not_lt.mp hge)
    rw [Int64.lt_iff_toInt_lt]
    omega

/-- The server can serve, the fetch is of its chain, and the follower's chain is part of it. -/
structure Pair.Copies (p : Pair σ τ) : Prop where
  served : p.server.driver.Served
  fetch : ∀ f, p.fetch = some f → f.Of p.server.driver
  table : ∀ h blk, p.follower.driver.committed h = some blk → p.server.driver.committed h = some blk

theorem Pair.Copies.fresh {server : Node σ} {follower : Node τ} (hserved : server.driver.Served)
    (hfresh : ∀ h, follower.driver.committed h = none) : (⟨server, follower, none⟩ : Pair σ τ).Copies := by
  refine ⟨hserved, nofun, fun h blk hb => ?_⟩
  rw [show follower.driver.committed h = none from hfresh h] at hb
  cases hb

/-- Applying a complete fetch adds the server's block at its height, or nothing. -/
private theorem apply_table {p : Pair σ τ} (hp : p.Copies) {f : Fetch} (hf : p.fetch = some f) {now : Int} {h : Int64}
    {blk : CommittedBlock}
    (hb : (nodeStep app' p.follower (now, .applyRemote f.payload f.cert)).driver.committed h = some blk) :
    p.server.driver.committed h = some blk := by
  rcases @call_commits _ app' p.follower (now, .applyRemote f.payload f.cert) with
    ⟨-, hsame, -⟩ | ⟨height, blk', hone, -, -, hcom⟩
  · rw [hsame.committed] at hb
    exact hp.table h blk hb
  · rw [hcom, update_apply] at hb
    split at hb
    · next heq =>
      subst heq
      obtain rfl := Option.some.inj hb
      obtain ⟨hblock, q, hdecode, hq, -⟩ := mem_commits (hone ▸ List.mem_singleton_self (h, blk'))
      obtain rfl := Option.some.inj hblock
      -- the payload names the height under which the server has it
      have hserver := (hp.fetch f hf).block (ne_nil_of_decode hdecode)
      obtain ⟨-, -, -, q', hdecode', hq'⟩ := hp.served.table _ _ hserver
      obtain rfl := Except.ok.inj (hdecode.symm.trans hdecode')
      rw [← hq, hq']
      exact hserver
    · exact hp.table h blk hb

theorem Pair.Copies.step {p : Pair σ τ} (hp : p.Copies) {ev : PairEvent} (hev : p.Follows ev) :
    (p.step app app' ev).Copies := by
  cases ev with
  | server now c =>
    obtain ⟨hserved, hgrows⟩ := served_step app (c := (now, c)) hp.served hev.1 hev.2
    exact ⟨hserved, fun f hf => (hp.fetch f hf).mono hgrows, fun h blk hb => hgrows h blk (hp.table h blk hb)⟩
  | follower now c =>
    refine ⟨hp.served, hp.fetch, ?_⟩
    have hsame := (@call_without_block _ app' p.follower now c hev).1
    rw [show (p.step app app' (.follower now c)).follower.driver.committed = p.follower.driver.committed from
      hsame.committed]
    exact hp.table
  | begin =>
    rw [Pair.step, Pair.beginRound]
    split
    · refine ⟨hp.served, fun f hf => ?_, hp.table⟩
      obtain rfl := Option.some.inj hf
      exact ⟨wanted_positive _, fun hne => absurd rfl hne⟩
    · exact hp
  | get delivered =>
    rw [Pair.step, Pair.ask]
    split
    · exact hp
    · next f hf =>
      split
      · exact hp
      · refine ⟨hp.served, fun f' hf' => ?_, hp.table⟩
        obtain rfl := Option.some.inj hf'
        exact (hp.fetch f hf).get hp.served delivered
  | apply now =>
    rw [Pair.step, Pair.endRound]
    split
    · exact hp
    · next f hf =>
      split
      · refine ⟨hp.served, nofun, fun h blk hb => ?_⟩
        dsimp only at hb
        split at hb
        · exact apply_table hp hf hb
        · exact hp.table h blk hb
      · exact hp

end Fetching

/-- Over any interleaving of the server's calls with the requests of a node that catches up from it, whichever answers
are lost, every block of the follower is the server's block at that height, with the server's certificate. -/
theorem follower_copies {σ τ : Type} (app : EngineApp σ) (app' : EngineApp τ) (server : Node σ) (follower : Node τ)
    (hserved : server.driver.Served) (hfresh : ∀ h, follower.driver.committed h = none) (evs : List PairEvent)
    (h : Along (Pair.step app app') Pair.Follows ⟨server, follower, none⟩ evs) (height : Int64) (blk : CommittedBlock)
    (hb : (run (Pair.step app app') ⟨server, follower, none⟩ evs).follower.driver.committed height = some blk) :
    (run (Pair.step app app') ⟨server, follower, none⟩ evs).server.driver.committed height = some blk := by
  exact (Along.invariant (I := Pair.Copies) (fun _ _ hp hev => hp.step hev) (.fresh hserved hfresh) h).table
    height blk hb

section Sample

def emptyNode : Node Unit := startNode (idleApp Unit) () [] none

private theorem emptyNode_served : emptyNode.driver.Served := ⟨by decide +kernel, nofun⟩

/-- A node with one block. -/
def holding (blk : CommittedBlock) : Node Unit :=
  { emptyNode with driver := { emptyNode.driver with next := 2, committed := update (fun _ => none) 1 (some blk) } }

private theorem holding_committed {blk blk' : CommittedBlock} {h : Int64}
    (hb : (holding blk).driver.committed h = some blk') : h = 1 ∧ blk' = blk := by
  change update (fun _ => none) 1 (some blk) h = some blk' at hb
  rw [update_apply] at hb
  split at hb
  · next heq => exact ⟨heq, (Option.some.inj hb).symm⟩
  · cases hb

private theorem holding_served {blk : CommittedBlock} {p : Payload} (hcert : blk.cert ≠ [])
    (hp : decodePayload blk.payload = .ok p) (hheight : p.height = 1) : (holding blk).driver.Served := by
  have hnext : (holding blk).driver.next = 2 := rfl
  refine ⟨by rw [hnext]; decide, fun h blk' hb => ?_⟩
  obtain ⟨rfl, rfl⟩ := holding_committed hb
  exact ⟨by decide, by rw [hnext]; decide, hcert, p, hp, hheight⟩

end Sample

/-- The server finalizes the first block while the follower asks for it. -/
theorem follower_copies_first_block :
    let evs : List PairEvent := [.begin, .get false, .server 1 (.finalize 0 (sha256 emptyBlock) emptyBlock [0x01]),
      .get true, .get true, .apply 2]
    let p := run (Pair.step (idleApp Unit) (idleApp Unit)) ⟨emptyNode, emptyNode, none⟩ evs
    p.follower.driver.committed 1 = some ⟨emptyBlock, [0x01]⟩ ∧
      p.server.driver.committed 1 = some ⟨emptyBlock, [0x01]⟩ := by
  intro evs p
  have hcopied : p.follower.driver.committed 1 = some ⟨emptyBlock, [0x01]⟩ := by decide +kernel
  have hcert : ∀ blk, (Call.finalize 0 (sha256 emptyBlock) emptyBlock [0x01]).block = some blk → blk.cert ≠ [] := by
    intro blk hblk
    obtain rfl := Option.some.inj hblk
    exact List.cons_ne_nil _ _
  have halong : Along (Pair.step (idleApp Unit) (idleApp Unit)) Pair.Follows ⟨emptyNode, emptyNode, none⟩ evs :=
    ⟨trivial, trivial, ⟨by decide +kernel, hcert⟩, trivial, trivial, trivial, trivial⟩
  exact ⟨hcopied, follower_copies (idleApp Unit) (idleApp Unit) emptyNode emptyNode emptyNode_served (fun _ => rfl) evs
    halong 1 _ hcopied⟩

section Sizes

private theorem mem_intersperse {α : Type} {sep x : α} {xs : List α} (h : x ∈ xs) : x ∈ xs.intersperse sep := by
  induction xs with
  | nil => cases h
  | cons y ys ih =>
    cases ys with
    | nil => exact h
    | cons z zs =>
      rw [List.intersperse_cons_cons]
      rcases List.mem_cons.mp h with rfl | h
      · exact List.mem_cons_self
      · exact List.mem_cons_of_mem _ (List.mem_cons_of_mem _ (ih h))

private theorem length_le_intercalate {t : Text} {ts : List Text} (h : t ∈ ts) :
    t.length ≤ ([44].intercalate ts).length :=
  (List.sublist_flatten_of_mem (mem_intersperse h)).length_le

/-- An object is longer than each of its members. -/
private theorem length_lt_object {name : String} {t : Text} {members : List (String × Text)} (h : (name, t) ∈ members) :
    t.length < (object members).length := by
  have hmember := length_le_intercalate (List.mem_map_of_mem (f := fun m => quoted (text m.1) ++ 58 :: m.2) h)
  simp only [List.length_append, List.length_cons] at hmember
  simp only [object, List.length_cons, List.length_append, List.length_nil]
  omega

private theorem length_lt_quoted (t : Text) : t.length < (quoted t).length := by
  simp only [quoted, List.length_cons, List.length_append, List.length_nil]
  omega

private theorem length_lt_array {t : Text} {ts : List Text} (h : t ∈ ts) : t.length < (array ts).length := by
  have hitem := length_le_intercalate h
  simp only [array, List.length_cons, List.length_append, List.length_nil]
  omega

/-- An answer is longer than the payload text in it. -/
theorem payload_lt_body (r : Response) : r.payloadText.length < r.body.length := by
  have hbody : r.json.length < r.body.length :=
    length_lt_object (List.mem_cons_of_mem _ (List.mem_cons_of_mem _ List.mem_cons_self))
  refine lt_of_le_of_lt ?_ hbody
  cases r with
  | payload height b64 c64 =>
    exact ((length_lt_quoted b64).trans
      (length_lt_object (List.mem_cons_of_mem _ (List.mem_cons_of_mem _ List.mem_cons_self)))).le
  | certificate height epoch view c64 signers => exact Nat.zero_le _
  | block height txs signatures b64 c64 =>
    rw [Response.payloadText]
    split
    · cases txs with
      | nil => exact Nat.zero_le _
      | cons tx txs =>
        -- the first transaction is in the list, in the data, in the block
        exact ((((length_lt_quoted tx).trans (length_lt_array List.mem_cons_self)).trans
          (length_lt_object List.mem_cons_self)).trans
            ((length_lt_object List.mem_cons_self).trans (length_lt_object List.mem_cons_self))).le
    · exact ((length_lt_quoted b64).trans
        (length_lt_object (List.mem_cons_of_mem _ (List.mem_cons_of_mem _ List.mem_cons_self)))).le

end Sizes

section Stall
variable {σ τ : Type} {app : EngineApp σ} {app' : EngineApp τ} {height : Int64} {blk : CommittedBlock}

/-- No readable answer about a large block carries its payload. -/
private theorem read_large {n : Node σ} (hn : n.driver.Served) (hb : n.driver.committed height = some blk)
    (hlarge : 3145728 < blk.payload.length) {u : Url} {r : Response}
    (hr : (serve app n height u).read = some r) : u = .certificate := by
  by_contra hu
  have htext : (serve app n height u).payloadText = Base64.encode blk.payload := by
    rw [(serve_committed app hn hb u).2.1]
    cases u with
    | certificate => exact absurd rfl hu
    | payload | block => rfl
  unfold Response.read at hr
  split at hr
  · next hfits =>
    have hlong := payload_lt_body (serve app n height u)
    rw [htext, Base64.encode_length] at hlong
    unfold bodyLimit at hfits
    omega
  · cases hr

/-- The large block is the server's, no fetch has its payload, and the follower has not passed it. -/
structure Pair.Stalled (height : Int64) (blk : CommittedBlock) (p : Pair σ τ) : Prop where
  block : p.server.driver.committed height = some blk
  fetch : ∀ f, p.fetch = some f → f.height = height → f.payload = []
  next : 0 < p.follower.driver.next ∧ p.follower.driver.next ≤ height

private theorem succ_le_of_lt {a b : Int64} (h : a < b) : a + 1 ≤ b := by
  have hmax : a < Int64.maxValue := by
    rw [Int64.lt_iff_toInt_lt] at h ⊢
    exact lt_of_lt_of_le h b.toInt_le
  rw [Int64.le_iff_toInt_le, toInt_succ hmax]
  have := Int64.lt_iff_toInt_lt.mp h
  omega

/-- Applying a fetch that is not of the large block does not pass the large block. -/
private theorem apply_below {p : Pair σ τ} (hc : p.Copies) (hp : p.Stalled height blk) {f : Fetch}
    (hf : p.fetch = some f)
    (hne : f.payload ≠ []) (now : Int) :
    0 < (nodeStep app' p.follower (now, .applyRemote f.payload f.cert)).driver.next ∧
      (nodeStep app' p.follower (now, .applyRemote f.payload f.cert)).driver.next ≤ height := by
  rcases @call_commits _ app' p.follower (now, .applyRemote f.payload f.cert) with
    ⟨-, hsame, -⟩ | ⟨h, blk', hone, hheight, hnext, -⟩
  · rw [hsame.next]
    exact hp.next
  · obtain rfl := hheight hp.next.1
    obtain ⟨hblock, q, hdecode, hq, -⟩ := mem_commits (hone ▸ List.mem_singleton_self (p.follower.driver.next, blk'))
    obtain rfl := Option.some.inj hblock
    obtain ⟨-, -, -, q', hdecode', hq'⟩ := hc.served.table _ _ ((hc.fetch f hf).block hne)
    obtain rfl := Except.ok.inj (hdecode.symm.trans hdecode')
    have hother : p.follower.driver.next ≠ height := fun heq => hne (hp.fetch f hf (hq'.symm.trans (hq.trans heq)))
    have hlt : p.follower.driver.next < height := Int64.lt_of_le_of_ne hp.next.2 hother
    have hle := succ_le_of_lt hlt
    rw [hnext]
    refine ⟨?_, hle⟩
    have hmax : p.follower.driver.next < Int64.maxValue := by
      rw [Int64.lt_iff_toInt_lt] at hlt ⊢
      exact lt_of_lt_of_le hlt height.toInt_le
    exact Int64.lt_trans hp.next.1 (lt_succ_of_lt_max hmax)

private theorem get_large {p : Pair σ τ} (hc : p.Copies) (hp : p.Stalled height blk)
    (hlarge : 3145728 < blk.payload.length) {f : Fetch}
    (hf : p.fetch = some f) (delivered : Bool) (hheight : (p.get app f delivered).height = height) :
    (p.get app f delivered).payload = [] := by
  have hsame : (p.get app f delivered).height = f.height := by
    unfold Pair.get
    split
    · rfl
    · unfold Fetch.answer
      split <;> rfl
  have hfh : f.height = height := hsame.symm.trans hheight
  have hempty := hp.fetch f hf hfh
  unfold Pair.get
  split
  · exact hempty
  · next u _ _ =>
    unfold Fetch.answer
    split
    · exact hempty
    · next r hr =>
      cases delivered with
      | false => cases hr
      | true =>
        rw [if_pos rfl, hfh] at hr
        obtain rfl := read_large hc.served hp.block hlarge hr
        have hserve : r = serve app p.server height .certificate := by
          unfold Response.read at hr
          split at hr
          · exact (Option.some.inj hr).symm
          · cases hr
        rw [hserve, hfh, decode_serve_committed app hc.served hp.block]
        simpa [Url.payloadOf] using hempty

theorem Pair.Stalled.step {p : Pair σ τ} (hc : p.Copies) (hp : p.Stalled height blk)
    (hlarge : 3145728 < blk.payload.length)
    {ev : PairEvent} (hev : p.Follows ev) : (p.step app app' ev).Stalled height blk := by
  cases ev with
  | server now c =>
    have hgrows := (served_step app (c := (now, c)) hc.served hev.1 hev.2).2
    exact ⟨hgrows height blk hp.block, hp.fetch, hp.next⟩
  | follower now c =>
    have hsame := (@call_without_block _ app' p.follower now c hev).1
    have hnext : (p.step app app' (.follower now c)).follower.driver.next = p.follower.driver.next := hsame.next
    exact ⟨hp.block, hp.fetch, by rw [hnext]; exact hp.next⟩
  | begin =>
    rw [Pair.step, Pair.beginRound]
    split
    · refine ⟨hp.block, fun f hf _ => ?_, hp.next⟩
      obtain rfl := Option.some.inj hf
      rfl
    · exact hp
  | get delivered =>
    rw [Pair.step, Pair.ask]
    split
    · exact hp
    · next f hf =>
      split
      · exact hp
      · refine ⟨hp.block, fun f' hf' heq => ?_, hp.next⟩
        obtain rfl := Option.some.inj hf'
        exact get_large hc hp hlarge hf delivered heq
  | apply now =>
    rw [Pair.step, Pair.endRound]
    split
    · exact hp
    · next f hf =>
      split
      · refine ⟨hp.block, nofun, ?_⟩
        dsimp only
        split
        · next hlen => exact apply_below hc hp hf (List.ne_nil_of_length_pos hlen.1) now
        · exact hp.next
      · exact hp

end Stall

/-- Over any such interleaving a node stays at or below a block of the server whose payload is longer than 3 MiB: the
answers that carry it are longer than what the node reads of an answer. -/
theorem follower_stalls {σ τ : Type} (app : EngineApp σ) (app' : EngineApp τ) (server : Node σ) (follower : Node τ)
    (hserved : server.driver.Served) (hfresh : ∀ h, follower.driver.committed h = none) (height : Int64)
    (blk : CommittedBlock) (hb : server.driver.committed height = some blk) (hlarge : 3145728 < blk.payload.length)
    (hpos : 0 < follower.driver.next) (hbelow : follower.driver.next ≤ height) (evs : List PairEvent)
    (h : Along (Pair.step app app') Pair.Follows ⟨server, follower, none⟩ evs) :
    (run (Pair.step app app') ⟨server, follower, none⟩ evs).follower.driver.next ≤ height := by
  have hstart : (⟨server, follower, none⟩ : Pair σ τ).Copies ∧
      (⟨server, follower, none⟩ : Pair σ τ).Stalled height blk :=
    ⟨.fresh hserved hfresh, hb, nofun, hpos, hbelow⟩
  exact (Along.invariant (I := fun p : Pair σ τ => p.Copies ∧ p.Stalled height blk)
    (fun _ _ hp hev => ⟨hp.1.step hev, hp.2.step hp.1 hlarge hev⟩) hstart h).2.next.2

section Sample

/-- A first block with one transaction of the given size. -/
def sizedBlock (size : Nat) : CommittedBlock := ⟨Payload.encode ⟨1, [List.replicate size 0]⟩, [0x01]⟩

private theorem sizedBlock_decode {size : Nat} (h : size < 2 ^ 32) :
    decodePayload (sizedBlock size).payload = .ok ⟨1, [List.replicate size 0]⟩ := by
  refine decodePayload_encode _ ?_ (fun tx htx => ?_)
  · change 1 < 2 ^ 32
    decide
  · obtain rfl := List.mem_singleton.mp htx
    rw [List.length_replicate]
    exact h

private theorem sizedBlock_length (size : Nat) : size < (sizedBlock size).payload.length := by
  simp only [sizedBlock, Payload.encode, List.flatMap_cons, List.flatMap_nil, List.length_append, List.length_cons,
    List.length_replicate, List.length_nil]
  omega

end Sample

/-- A first block of more than 3 MiB, asked for in one round. -/
theorem follower_stalls_first_block :
    (run (Pair.step (idleApp Unit) (idleApp Unit)) ⟨holding (sizedBlock 3145728), emptyNode, none⟩
      [.begin, .get true, .get true, .get true, .apply 1]).follower.driver.next ≤ 1 :=
  follower_stalls (idleApp Unit) (idleApp Unit) _ emptyNode
    (holding_served (List.cons_ne_nil _ _) (sizedBlock_decode (by decide)) rfl) (fun _ => rfl) 1
    (sizedBlock 3145728) rfl
    (sizedBlock_length _) (by decide +kernel) (by decide +kernel) _
      ⟨trivial, trivial, trivial, trivial, trivial, trivial⟩

section Rounds
variable {σ τ : Type} {app : EngineApp σ} {app' : EngineApp τ}

/-- One round of the loop, in which the answer that carries the payload comes. -/
def round (r : Bool × Bool × Int) : List PairEvent := [.begin, .get r.1, .get true, .get r.2.1, .apply r.2.2]

/-- The server's block at the wanted height, if it has it, is applied directly. -/
def copyStep (app' : EngineApp τ) (server : Node σ) (follower : Node τ) (r : Bool × Bool × Int) : Node τ :=
  ((server.driver.committed (follower.wanted app')).map
    (fun blk => nodeStep app' follower (r.2.2, .applyRemote blk.payload blk.cert))).getD follower

private theorem answer_left (f : Fetch) (r : Option Response) : (f.answer r).left = f.left.tail := by
  unfold Fetch.answer
  split <;> rfl

private theorem answer_height (f : Fetch) (r : Option Response) : (f.answer r).height = f.height := by
  unfold Fetch.answer
  split <;> rfl

variable {server : Node σ} {follower : Node τ}

private theorem step_get {f : Fetch} {u : Url} {us : List Url} (hleft : f.left = u :: us) (hempty : f.payload = [])
    (delivered : Bool) : (⟨server, follower, some f⟩ : Pair σ τ).step app app' (.get delivered) =
      ⟨server, follower, some (f.answer (server.reply app f.height u delivered))⟩ := by
  have hopen : ¬ f.complete := by
    rintro (hnil | hboth)
    · cases hleft.symm.trans hnil
    · exact hboth.1 hempty
  have hget : (⟨server, follower, some f⟩ : Pair σ τ).get app f delivered =
      f.answer (server.reply app f.height u delivered) := by
    simp only [Pair.get, hleft]
    rfl
  simp only [Pair.step, Pair.ask, if_neg hopen, hget]

private theorem step_get_complete {f : Fetch} (hf : f.complete) (delivered : Bool) :
    (⟨server, follower, some f⟩ : Pair σ τ).step app app' (.get delivered) = ⟨server, follower, some f⟩ := by
  simp only [Pair.step, Pair.ask, if_pos hf]

private theorem step_apply {f : Fetch} (hf : f.complete) (now : Int) :
    (⟨server, follower, some f⟩ : Pair σ τ).step app app' (.apply now) = ⟨server,
      if f.payload.length > 0 ∧ f.cert.length > 0 then nodeStep app' follower (now, .applyRemote f.payload f.cert)
        else follower, none⟩ := by
  simp only [Pair.step, Pair.endRound, if_pos hf]

private theorem round_eq (r : Bool × Bool × Int) : run (Pair.step app app') ⟨server, follower, none⟩ (round r) =
    Pair.step app app' (Pair.step app app' (Pair.step app app' (Pair.step app app'
      ⟨server, follower, some (.start (follower.wanted app'))⟩ (.get r.1)) (.get true)) (.get r.2.1)) (.apply r.2.2) :=
  rfl

/-- A round that finds the server without the block leaves everything as it was. -/
private theorem round_unknown (hserved : server.driver.Served)
    (hb : server.driver.committed (follower.wanted app') = none) (r : Bool × Bool × Int) :
    run (Pair.step app app') ⟨server, follower, none⟩ (round r) = ⟨server, follower, none⟩ := by
  have hempty : ∀ f : Fetch, f.Of server.driver → f.height = follower.wanted app' → f.payload = [] := by
    intro f hf hheight
    by_contra hne
    have hblock := hf.block hne
    rw [hheight, hb] at hblock
    cases hblock
  have h0 : (Fetch.start (follower.wanted app')).Of server.driver := ⟨wanted_positive _, fun hne => absurd rfl hne⟩
  have h1 := h0.reply app hserved .certificate r.1
  have h2 := h1.reply app hserved .payload true
  have h3 := h2.reply app hserved .block r.2.1
  have hdone := hempty _ h3 (by rw [answer_height, answer_height, answer_height]; rfl)
  rw [round_eq, step_get rfl rfl, step_get (answer_left _ _) (hempty _ h1 (answer_height _ _)),
    step_get (by rw [answer_left, answer_left]; rfl) (hempty _ h2 (by rw [answer_height, answer_height]; rfl)),
    step_apply (.inl (by rw [answer_left, answer_left, answer_left]; rfl)), hdone]
  rfl

/-- What an answer about a block of the chain adds to a fetch. -/
private theorem answer_committed (hserved : server.driver.Served) {f : Fetch} {blk : CommittedBlock}
    (hb : server.driver.committed f.height = some blk) (u : Url) : f.answer (some (serve app server f.height u)) =
      ⟨f.height, f.left.tail, if (u.payloadOf blk).length > 0 then u.payloadOf blk else f.payload, blk.cert⟩ := by
  obtain ⟨-, -, hcert, -⟩ := hserved.table _ _ hb
  have hclen : blk.cert.length > 0 := List.length_pos_of_ne_nil hcert
  simp only [Fetch.answer, decode_serve_committed app hserved hb, hclen, if_true]

/-- A round that finds the block applies it. -/
private theorem round_known (hserved : server.driver.Served) {blk : CommittedBlock}
    (hb : server.driver.committed (follower.wanted app') = some blk)
    (hfits : (payloadResult server (follower.wanted app')).body.length ≤ bodyLimit) (r : Bool × Bool × Int) :
    run (Pair.step app app') ⟨server, follower, none⟩ (round r) =
      ⟨server, nodeStep app' follower (r.2.2, .applyRemote blk.payload blk.cert), none⟩ := by
  obtain ⟨-, -, hcert, p, hp, -⟩ := hserved.table _ _ hb
  have hplen : blk.payload.length > 0 := List.length_pos_of_ne_nil (ne_nil_of_decode hp)
  have hclen : blk.cert.length > 0 := List.length_pos_of_ne_nil hcert
  -- the first answer has no payload, whether or not it comes
  have hfirst : ((Fetch.start (follower.wanted app')).answer
      (server.reply app (follower.wanted app') .certificate r.1)).payload = [] := by
    unfold Node.reply Response.read
    split
    · split
      · exact congrArg Fetch.payload (answer_committed (f := .start (follower.wanted app')) hserved hb .certificate)
      · rfl
    · rfl
  generalize hf1 : (Fetch.start (follower.wanted app')).answer
    (server.reply app (follower.wanted app') .certificate r.1) = f1 at hfirst
  have hheight : f1.height = follower.wanted app' := hf1 ▸ answer_height _ _
  have hleft : f1.left = [.payload, .block] := hf1 ▸ answer_left _ _
  have hreply : server.reply app f1.height .payload true = some (serve app server f1.height .payload) := by
    rw [Node.reply, if_pos rfl, Response.read, hheight]
    exact if_pos hfits
  have hsecond : f1.answer (server.reply app f1.height .payload true) =
      ⟨follower.wanted app', [.block], blk.payload, blk.cert⟩ := by
    rw [hreply, answer_committed hserved (hheight ▸ hb), hleft, hheight, Url.payloadOf, if_pos hplen]
    · rfl
    · nofun
  rw [round_eq, step_get rfl rfl]
  change Pair.step app app' (Pair.step app app' (Pair.step app app' ⟨server, follower, some ((Fetch.start
    (follower.wanted app')).answer (server.reply app (follower.wanted app') .certificate r.1))⟩ _) _) _ = _
  rw [hf1, step_get hleft hfirst, hsecond, step_get_complete, step_apply]
  · simp only [hplen, hclen, and_self, if_true]
  · exact .inr ⟨ne_nil_of_decode hp, hcert⟩
  · exact .inr ⟨ne_nil_of_decode hp, hcert⟩

end Rounds

/-- When every block of the server fits into a payload answer, rounds of requests do what reading its chain directly
would: each applies the server's block at the wanted height, or nothing when there is none. -/
theorem rounds_copy_chain {σ τ : Type} (app : EngineApp σ) (app' : EngineApp τ) (server : Node σ) (follower : Node τ)
    (hserved : server.driver.Served)
    (hfits : ∀ h blk, server.driver.committed h = some blk → (payloadResult server h).body.length ≤ bodyLimit)
    (rounds : List (Bool × Bool × Int)) :
    run (Pair.step app app') ⟨server, follower, none⟩ (rounds.flatMap round) =
      ⟨server, run (copyStep app' server) follower rounds, none⟩ := by
  induction rounds generalizing follower with
  | nil => rfl
  | cons r rounds ih =>
    have hround : run (Pair.step app app') ⟨server, follower, none⟩ (round r) =
        ⟨server, copyStep app' server follower r, none⟩ := by
      cases hb : server.driver.committed (follower.wanted app') with
      | none =>
        rw [round_unknown hserved hb, copyStep, hb]
        rfl
      | some blk =>
        rw [round_known hserved hb (hfits _ _ hb), copyStep, hb]
        rfl
    rw [List.flatMap_cons, run_append, hround, ih]
    rfl

/-- Two rounds with a server that has one block. -/
theorem rounds_copy_chain_first_block :
    run (Pair.step (idleApp Unit) (idleApp Unit)) ⟨holding ⟨emptyBlock, [0x01]⟩, emptyNode, none⟩
      ([(true, true, 1), (false, true, 2)].flatMap round) =
    ⟨holding ⟨emptyBlock, [0x01]⟩, run (copyStep (idleApp Unit) (holding ⟨emptyBlock, [0x01]⟩)) emptyNode
      [(true, true, 1), (false, true, 2)], none⟩ := by
  refine rounds_copy_chain (idleApp Unit) (idleApp Unit) _ _
    (@holding_served ⟨emptyBlock, [0x01]⟩ ⟨1, []⟩ (List.cons_ne_nil _ _) (by decide +kernel) rfl) (fun h blk hb => ?_) _
  obtain ⟨rfl, rfl⟩ := holding_committed hb
  decide +kernel

end Terpz.Leanval.Cwffi
