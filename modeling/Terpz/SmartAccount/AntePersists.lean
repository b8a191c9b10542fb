import Terpz.SmartAccount.Ante.Authenticate
import Terpz.SmartAccount.Confirmation

/-! What the authenticator ante handler leaves behind, wherever it stops, and what has happened when it calls the
next handler. -/
namespace Terpz.SmartAccount
open Lib

/-- How often the fees were deducted. -/
def deductions (es : List Event) : Nat := es.count (.deductFee none)

/-- An event that is neither a deduction of fees nor the call of the next handler. -/
def Event.Minor (e : Event) : Prop := e ≠ .deductFee none ∧ e ≠ .next

/-- The sequence of an account; a missing one counts as new. -/
def accountSequence : Option Account → UInt64
  | none => 0
  | some a => a.sequence

namespace App
variable {μ : Type} (app : App μ) (tx : Tx) (simulate : Bool)

/-- The fee decorator returned on the store, with these writes. -/
def FeeRun (v : Store) (o : Overlay StoreKey Bytes) : Prop := ∃ m m', app.deductFee tx simulate v m = ((o, m'), .ok ())

/-- What reached the parent store: nothing before the fees were deducted, and from then on what was in the cache
before the handler together with the writes of the one deduction. -/
inductive Persisted (c : Cache StoreKey Bytes) (ctx : Context μ) : Prop where
  | unpaid (none_deducted : deductions ctx.trace = 0) (base_eq : ctx.store.base = c.base)
  | paid (o : Overlay StoreKey Bytes) (one_deducted : deductions ctx.trace = 1) (run : app.FeeRun tx simulate c.view o)
    (base_eq : ctx.store.base = c.view.over o)

/-- The message was authenticated on the store by the authenticator that its one signer has under the selected id,
and the signature of that signer carries the sequence of the account. -/
structure Vouched (v : Store) (msgIndex : Nat) (a : Authenticated μ) : Prop where
  index_eq : a.msgIndex = msgIndex
  signer : ∃ msg, tx.msgs[msgIndex]? = some msg ∧ msg.signers = .ok [a.account]
  selected : ∃ selected id, app.getSelectedAuthenticators tx tx.msgs.length = .ok selected ∧
    selected[msgIndex]? = some id ∧ app.initializedAuthenticator v a.account id = .ok a.selected
  request_eq : a.request.account = a.account ∧ a.request.msgIndex = UInt64.ofNat msgIndex ∧
    a.request.authenticatorId = decimal a.selected.id.toNat
  accepted : ∃ m o m', a.selected.authenticator.authenticate a.request v m = ((o, m'), .ok ())
  sequence : ∃ signers signatures, getSignerAndSignatures tx = .ok (signers, signatures) ∧ a.account ∈ signers ∧
    ∀ j : Nat, signers[j]? = some a.account →
      ∃ signature, signatures[j]? = some signature ∧ signature.sequence = accountSequence (app.getAccount v a.account)

/-- The authenticators tracked in order, each on the store that the ones before left. -/
inductive Tracked : Store → List (Authenticated μ) → List (Overlay StoreKey Bytes) → Prop where
  | nil (v : Store) : Tracked v [] []
  | cons {v : Store} {a : Authenticated μ} {rest : List (Authenticated μ)} {o : Overlay StoreKey Bytes}
    {os : List (Overlay StoreKey Bytes)} {m m' : μ}
    (tracked : a.selected.authenticator.track a.request v m = ((o, m'), .ok ())) (tail : Tracked (v.over o) rest os) :
    Tracked v (a :: rest) (o :: os)

/-- All calls up to the next handler: the first message, the fees, the other messages, then the tracks; the cache
holds the writes of the tracks and of the next handler on top of the fees. -/
def Completed (c : Cache StoreKey Bytes) (ctx : Context μ) : Prop :=
  ∃ (o : Overlay StoreKey Bytes) (first : Authenticated μ) (rest : List (Authenticated μ))
    (tracks : List (Overlay StoreKey Bytes)) (last : Overlay StoreKey Bytes),
    app.FeeRun tx simulate c.view o ∧ (first :: rest).length = tx.msgs.length ∧
    app.Vouched tx c.view 0 first ∧
    (∀ (i : Nat) (a : Authenticated μ), rest[i]? = some a → app.Vouched tx (c.view.over o) (i + 1) a) ∧
    Tracked (c.view.over o) (first :: rest) tracks ∧
    ctx.trace = .authenticate first.request none :: .deductFee none ::
      (rest.map (fun a => .authenticate a.request none) ++ (first :: rest).map (fun a => .track a.request none) ++
          [.next]) ∧
    ctx.store = (tracks.foldl Cache.extend (.fresh (c.view.over o))).extend last

/-- What holds wherever the handler stops. -/
def Accounted (c : Cache StoreKey Bytes) (ctx : Context μ) : Prop :=
  app.Persisted tx simulate c ctx ∧ (.next ∈ ctx.trace → app.Completed tx simulate c ctx)

/-- The parent store is as it was, and only minor events were added. -/
def Still (ctx ctx' : Context μ) : Prop :=
  ctx'.store.base = ctx.store.base ∧ ∃ es, ctx'.trace = ctx.trace ++ es ∧ ∀ e ∈ es, e.Minor

variable {app tx simulate} {c : Cache StoreKey Bytes} {ctx ctx' : Context μ}

theorem Still.of_metered (h : Context.Metered ctx ctx') : Still ctx ctx' :=
  ⟨by rw [h.store], [], by rw [h.trace, List.append_nil], fun _ he => absurd he List.not_mem_nil⟩

theorem Still.of_event {e : Event} (hbase : ctx'.store.base = ctx.store.base) (htrace : ctx'.trace = ctx.trace ++ [e])
    (he : e.Minor) : Still ctx ctx' :=
  ⟨hbase, [e], htrace, fun _ he' => List.mem_singleton.mp he' ▸ he⟩

theorem Still.trans {a b d : Context μ} (h : Still a b) (h' : Still b d) : Still a d := by
  obtain ⟨hbase, es, htrace, hes⟩ := h
  obtain ⟨hbase', es', htrace', hes'⟩ := h'
  refine ⟨hbase'.trans hbase, es ++ es', by rw [htrace', htrace, List.append_assoc], ?_⟩
  intro e he
  exact (List.mem_append.mp he).elim (hes e) (hes' e)

theorem Still.deductions_eq (h : Still ctx ctx') : deductions ctx'.trace = deductions ctx.trace := by
  obtain ⟨-, es, htrace, hes⟩ := h
  have hnone : es.count (.deductFee none) = 0 := List.count_eq_zero_of_not_mem (fun hmem => (hes _ hmem).1 rfl)
  rw [deductions, htrace, List.count_append, hnone, Nat.add_zero, deductions]

theorem Still.next_iff (h : Still ctx ctx') : .next ∈ ctx'.trace ↔ .next ∈ ctx.trace := by
  obtain ⟨-, es, htrace, hes⟩ := h
  rw [htrace, List.mem_append, or_iff_left (fun hmem => (hes _ hmem).2 rfl)]

/-- Before the fees nothing reaches the parent store. -/
theorem Still.accounted_unpaid (h : Still ctx ctx') (hstore : ctx.store = c) (htrace : ctx.trace = []) :
    app.Accounted tx simulate c ctx' := by
  refine ⟨.unpaid (by rw [h.deductions_eq, htrace]; rfl) (by rw [h.1, hstore]), fun hnext => ?_⟩
  rw [h.next_iff, htrace] at hnext
  exact absurd hnext List.not_mem_nil

/-- After the fees the parent store has them and nothing else. -/
theorem Still.accounted_paid {o : Overlay StoreKey Bytes} (h : Still ctx ctx') (hrun : app.FeeRun tx simulate c.view o)
    (hbase : ctx.store.base = c.view.over o) (hone : deductions ctx.trace = 1) (hnext : .next ∉ ctx.trace) :
    app.Accounted tx simulate c ctx' :=
  ⟨.paid o (h.deductions_eq.trans hone) hrun (h.1.trans hbase), fun hmem => absurd (h.next_iff.mp hmem) hnext⟩

section Sequence

/-- The signatures of the account passed the replay protection. -/
theorem extractSignatures_sequence {txData : ExplicitTxData} {account : Bytes} {pairs : List (Bytes × SignatureV2)}
    {signatures : List Bytes} {msgSignature : Bytes} {out : List Bytes × Bytes}
    (h : extractSignatures txData account sequenceMatch pairs signatures msgSignature = .ok out)
    {signature : SignatureV2}
    (hmem : (account, signature) ∈ pairs) : signature.sequence = txData.accountSequence := by
  induction pairs generalizing signatures msgSignature with
  | nil => cases hmem
  | cons p pairs ih =>
    obtain ⟨signer, sig⟩ := p
    rw [extractSignatures] at h
    cases hsingle : sig.single with
    | none =>
      rw [hsingle] at h
      cases h
    | some single =>
      simp only [hsingle] at h
      by_cases hsigner : signer = account
      · rw [if_pos hsigner] at h
        obtain ⟨_, hmatch, hrest⟩ := bind_eq_ok.mp h
        rcases List.mem_cons.mp hmem with heq | hmem
        · cases heq
          exact not_not.mp (failIf_eq_ok.mp hmatch)
        · exact ih hrest hmem
      · rw [if_neg hsigner] at h
        rcases List.mem_cons.mp hmem with heq | hmem
        · cases heq
          exact absurd rfl hsigner
        · exact ih h hmem

theorem signerData_sequence {chainId : Text} {blockHeight : Int} {found : Option Account} {data : SignerData}
    (h : signerData chainId blockHeight found = .ok data) : data.sequence = accountSequence found := by
  cases found with
  | some a =>
    cases h
    rfl
  | none =>
    rw [signerData] at h
    split at h
    · cases h
      rfl
    · cases h

theorem extractExplicitTxData_sequence {data : SignerData} {txData : ExplicitTxData}
    (h : extractExplicitTxData tx data = .ok txData) : txData.accountSequence = data.sequence := by
  unfold extractExplicitTxData at h
  split at h
  · cases h
  · cases h
  · obtain ⟨msgs, -, hdata⟩ := bind_eq_ok.mp h
    cases hdata
    rfl

theorem getSignerAndSignatures_ok {signers : List Bytes} {signatures : List SignatureV2}
    (h : getSignerAndSignatures tx = .ok (signers, signatures)) :
    signatures.length = signers.length ∧ ∃ sigTx, tx.sigTx = some sigTx ∧ sigTx.signers = .ok signers := by
  unfold getSignerAndSignatures at h
  cases hsig : tx.sigTx with
  | none =>
    rw [hsig] at h
    cases h
  | some sigTx =>
    simp only [hsig] at h
    obtain ⟨sigs, -, h⟩ := bind_eq_ok.mp h
    obtain ⟨ss, hss, h⟩ := bind_eq_ok.mp h
    obtain ⟨hlen, hout⟩ := failIf_bind_eq_ok.mp h
    cases hout
    exact ⟨not_not.mp hlen, sigTx, rfl, hss⟩

/-- What a request generated under sequence matching says about its account. -/
theorem requestOf_ok {signed : List Bytes × List SignatureV2} {found : Option Account} {account feePayer : Bytes}
    {feeTx : FeeTx} {msgIndex : Nat} {request : AuthenticationRequest}
    (h : app.requestOf signed found account feePayer feeTx tx msgIndex simulate sequenceMatch = .ok request) :
    request.account = account ∧ request.msgIndex = UInt64.ofNat msgIndex ∧
      ∀ signature, (account, signature) ∈ signed.1.zip signed.2 → signature.sequence = accountSequence found := by
  obtain ⟨data, hdata, h⟩ := bind_eq_ok.mp h
  obtain ⟨txData, htxData, h⟩ := bind_eq_ok.mp h
  obtain ⟨⟨signatures, msgSignature⟩, hsignatures, h⟩ := bind_eq_ok.mp h
  have hsequence : txData.accountSequence = accountSequence found :=
    (extractExplicitTxData_sequence (wrapErr_eq_ok.mp htxData)).trans (signerData_sequence hdata)
  cases hany : txData.msgs[msgIndex]? with
  | none =>
    simp only [hany] at h
    cases h
  | some any =>
    simp only [hany] at h
    obtain ⟨direct, -, hrequest⟩ := bind_eq_ok.mp h
    cases hrequest
    refine ⟨rfl, rfl, fun signature hmem => ?_⟩
    exact (extractSignatures_sequence (wrapErr_eq_ok.mp hsignatures) hmem).trans hsequence

theorem requestSignatures_ok {account : Bytes} {msg : Msg} {signed : List Bytes × List SignatureV2}
    (h : requestSignatures account msg tx = .ok signed) : getSignerAndSignatures tx = .ok signed := by
  obtain ⟨signers, -, h⟩ := bind_eq_ok.mp h
  split at h
  · cases h
  · exact wrapErr_eq_ok.mp (failIf_bind_eq_ok.mp h).2

end Sequence

section Steps
variable {feePayer : Bytes} {feeTx : FeeTx} {selected : List UInt64}

/-- One message: it was authenticated without a trace in the store, or the handler fails here. -/
theorem meets_authenticateMsg (hselected : app.getSelectedAuthenticators tx tx.msgs.length = .ok selected)
    {msgIndex : Nat}
    {msg : Msg} (hmsg : tx.msgs[msgIndex]? = some msg) :
    Attempt.Meets (Context.Metered ctx) (app.authenticateMsg feePayer feeTx tx simulate selected msgIndex msg)
      (fun a s => app.Vouched tx ctx.store.view msgIndex a ∧ s.store = ctx.store ∧
        s.trace = ctx.trace ++ [.authenticate a.request none])
      (Still ctx) := by
  have hstill : ∀ s, Context.Metered ctx s → Still ctx s := fun _ => Still.of_metered
  refine .bind_fact (.lift hstill) (fun signers hsigners => ?_)
  refine .bind_fact (.lift hstill) (fun _ hone => ?_)
  refine .bind_fact (.lift hstill) (fun account haccount => ?_)
  refine .bind_fact (.lift hstill) (fun id hid => ?_)
  refine .bind_fact (.mapFailure (Context.meets_query hstill)) (fun auth ⟨m, hauth⟩ => ?_)
  refine .bind_fact (.mapFailure (Context.meets_query hstill)) (fun request ⟨m', hrequest⟩ => ?_)
  refine .bind_fact (Context.meets_query hstill) (fun _ _ => ?_)
  refine .bind ((Context.meets_recorded_neverWrite _ _).mapFailure.weaken (fun _ h => h) (fun _ _ h => h) ?_) ?_
  · rintro s ⟨hstore, f, htrace⟩
    exact .of_event (by rw [hstore]) htrace ⟨by simp, by simp⟩
  refine fun _ => .pure _ ?_
  rintro s ⟨haccepted, hstore, -, htrace⟩
  refine ⟨?_, hstore, htrace⟩
  -- the one signer of the message is the account
  have hlen : signers.length = 1 := not_not.mp (failIf_eq_ok.mp hone)
  obtain ⟨only, rfl⟩ := List.length_eq_one_iff.mp hlen
  cases atIndex_eq_ok.mp haccount
  have hsigner := msgSigners_eq_ok.mp hsigners
  obtain ⟨⟨txSigners, txSignatures⟩, hsigned, hof⟩ := app.generate_ok hrequest
  obtain ⟨hreqAccount, hreqIndex, hsequence⟩ := requestOf_ok hof
  have hboth := requestSignatures_ok hsigned
  obtain ⟨hlength, sigTx, hsigTx, hsigTxSigners⟩ := getSignerAndSignatures_ok hboth
  constructor
  · rfl
  · exact ⟨msg, hmsg, hsigner⟩
  · exact ⟨selected, id, hselected, atIndex_eq_ok.mp hid, app.getInitialized_ok hauth⟩
  · exact ⟨hreqAccount, hreqIndex, rfl⟩
  · exact haccepted
  · refine ⟨txSigners, txSignatures, hboth, ?_, fun j hj => ?_⟩
    · exact tx.signers_of_msgs sigTx hsigTx txSigners hsigTxSigners msg (List.mem_of_getElem? hmsg) _ hsigner _
        List.mem_cons_self
    · obtain ⟨hlt, hget⟩ := List.getElem?_eq_some_iff.mp hj
      have hlt' : j < txSignatures.length := by omega
      refine ⟨txSignatures[j], List.getElem?_eq_getElem hlt', hsequence _ ?_⟩
      have hpair : (txSigners.zip txSignatures)[j]? = some (account, txSignatures[j]) := by
        rw [List.getElem?_zip_eq_some]
        exact ⟨hj, List.getElem?_eq_getElem hlt'⟩
      exact List.mem_of_getElem? hpair

/-- The fees are deducted once and written through with what the cache held, or the parent store is untouched. -/
theorem meets_payFees : Attempt.Meets (Context.Metered ctx) (app.payFees tx simulate)
    (fun _ s => ∃ o, app.FeeRun tx simulate ctx.store.view o ∧ s.store = .fresh (ctx.store.view.over o) ∧
      s.trace = ctx.trace ++ [.deductFee none])
    (Still ctx) := by
  refine .bind (Q := fun _ => Context.Metered ctx) ?_ (fun _ => .bind ((Context.meets_recorded_perform _ _).weaken
    (fun _ h => h) (fun _ _ h => h) ?_) ?_)
  · intro s hs
    have hm : Context.Metered ctx (app.chargePayerGas s).1 := ⟨hs.store, hs.onPayer, hs.trace⟩
    rcases h : app.chargePayerGas s with ⟨s', _ | _⟩ <;> rw [h] at hm
    · exact .of_metered hm
    · exact hm
  · rintro s ⟨hbase, f, htrace⟩
    exact .of_event hbase htrace ⟨by simp, by simp⟩
  · rintro - s ⟨⟨m, o, m', hrun, hstore⟩, -, htrace⟩
    refine ⟨o, ⟨m, m', hrun⟩, ?_, htrace⟩
    change s.store.flush = _
    rw [hstore, Cache.flush, Cache.view_extend]

/-- The messages after the fees: no more fees are paid. -/
theorem meets_authenticateMsgs_paid (hselected : app.getSelectedAuthenticators tx tx.msgs.length = .ok selected)
    (msgs : List Msg) : ∀ (i : Nat) (ctx : Context μ), (∀ j, msgs[j]? = tx.msgs[i + j]?) →
      Attempt.Meets (Context.Metered ctx) (app.authenticateMsgs feePayer feeTx tx simulate selected i true msgs)
        (fun as s => as.length = msgs.length ∧
          (∀ j a, as[j]? = some a → app.Vouched tx ctx.store.view (i + j) a) ∧ s.store = ctx.store ∧
          s.trace = ctx.trace ++ as.map (fun a => .authenticate a.request none))
        (Still ctx) := by
  induction msgs with
  | nil =>
    intro i ctx _
    refine .pure _ (fun s hs => ⟨rfl, ?_, hs.store, by rw [hs.trace]; simp⟩)
    intro j a hj
    cases hj
  | cons msg msgs ih =>
    intro i ctx hmsgs s hs
    have hmsg : tx.msgs[i]? = some msg := (hmsgs 0).symm
    have hsame : Still ctx s := .of_metered hs
    refine Attempt.Meets.bind (P := Context.Metered s) ((meets_authenticateMsg hselected hmsg).weaken (fun _ h => h)
      (fun _ _ h => h) (fun _ h => hsame.trans h)) ?_ s (.refl s)
    rintro a s₁ ⟨hvouched, hstore, htrace⟩
    have hstill : Still s s₁ := .of_event (by rw [hstore]) htrace ⟨by simp, by simp⟩
    have hsettle : app.settleFees tx simulate true a.account feePayer = pure true := if_neg (by simp)
    rw [hsettle]
    refine Attempt.Meets.bind (Q := fun as t => as.length = msgs.length ∧
        (∀ j b, as[j]? = some b → app.Vouched tx s₁.store.view (i + 1 + j) b) ∧ t.store = s₁.store ∧
        t.trace = s₁.trace ++ as.map (fun a => .authenticate a.request none))
      ((ih (i + 1) s₁ (fun j => ?_)).weaken (fun _ h => h) (fun _ _ h => h) (fun _ h => hsame.trans (hstill.trans h)))
      (fun as => .pure _ ?_) s₁ (.refl s₁)
    · have hnext := hmsgs (j + 1)
      rw [List.getElem?_cons_succ] at hnext
      rw [hnext]
      congr 1
      omega
    · rintro t ⟨hlen, hrest, htstore, httrace⟩
      refine ⟨by rw [List.length_cons, List.length_cons, hlen], ?_, ?_, ?_⟩
      · intro j b hj
        cases j with
        | zero =>
          cases hj
          rw [← hs.store]
          exact hvouched
        | succ j =>
          have h := hrest j b hj
          rw [hstore, hs.store] at h
          rwa [show i + (j + 1) = i + 1 + j by omega]
      · rw [htstore, hstore, hs.store]
      · rw [httrace, htrace, hs.trace, List.map_cons, List.append_assoc, List.singleton_append]

/-- The tracks: their writes stay in the cache. -/
theorem meets_trackMsgs (as : List (Authenticated μ)) : ∀ ctx : Context μ,
    Attempt.Meets (Context.Metered ctx) (app.trackMsgs as)
      (fun _ s => ∃ os, Tracked ctx.store.view as os ∧ s.store = os.foldl Cache.extend ctx.store ∧
        s.trace = ctx.trace ++ as.map (fun a => .track a.request none))
      (Still ctx) := by
  induction as with
  | nil =>
    intro ctx
    exact .pure _ (fun s hs => ⟨[], .nil _, hs.store, by rw [hs.trace]; simp⟩)
  | cons a as ih =>
    intro ctx s hs
    have hsame : Still ctx s := .of_metered hs
    refine Attempt.Meets.bind (P := Context.Metered s) ((Context.meets_recorded_perform _ _).mapFailure.weaken
      (fun _ h => h) (fun _ _ h => h) ?_) ?_ s (.refl s)
    · rintro t ⟨hbase, f, htrace⟩
      exact hsame.trans (.of_event hbase htrace ⟨by simp, by simp⟩)
    · rintro - s₁ ⟨⟨m, o, m', htrack, hstore⟩, -, htrace⟩
      have hstill : Still s s₁ := .of_event (by rw [hstore]; rfl) htrace ⟨by simp, by simp⟩
      refine (ih s₁).weaken (fun _ h => h) ?_ (fun _ h => hsame.trans (hstill.trans h)) s₁ (.refl s₁)
      rintro - t ⟨os, hos, htstore, httrace⟩
      rw [hstore, Cache.view_extend, hs.store] at hos
      refine ⟨o :: os, .cons (hs.store ▸ htrack) hos, ?_, ?_⟩
      · rw [htstore, hstore, hs.store, List.foldl_cons]
      · rw [httrace, htrace, hs.trace, List.map_cons, List.append_assoc, List.singleton_append]

/-- Every message is authenticated and the fees are paid; the cache is clean. -/
structure Ready (app : App μ) (tx : Tx) (simulate : Bool) (c : Cache StoreKey Bytes) (o : Overlay StoreKey Bytes)
    (first : Authenticated μ) (rest : List (Authenticated μ)) (ctx : Context μ) : Prop where
  run : app.FeeRun tx simulate c.view o
  length_eq : (first :: rest).length = tx.msgs.length
  vouched : app.Vouched tx c.view 0 first
  vouched_rest : ∀ (i : Nat) (a : Authenticated μ), rest[i]? = some a → app.Vouched tx (c.view.over o) (i + 1) a
  store_eq : ctx.store = .fresh (c.view.over o)
  trace_eq : ctx.trace = .authenticate first.request none :: .deductFee none ::
    rest.map (fun a => .authenticate a.request none)

theorem Ready.deductions_eq {o : Overlay StoreKey Bytes} {first : Authenticated μ} {rest : List (Authenticated μ)}
    (h : Ready app tx simulate c o first rest ctx) : deductions ctx.trace = 1 := by
  have hrest : (rest.map (fun a => Event.authenticate a.request none)).count (.deductFee none) = 0 := by
    apply List.count_eq_zero_of_not_mem
    simp
  rw [deductions, h.trace_eq, List.count_cons_of_ne (by simp), List.count_cons_self, hrest]

theorem Ready.next_not_mem {o : Overlay StoreKey Bytes} {first : Authenticated μ} {rest : List (Authenticated μ)}
    (h : Ready app tx simulate c o first rest ctx) : .next ∉ ctx.trace := by
  rw [h.trace_eq]
  simp

/-- All messages of a transaction whose fee payer signs the first. -/
theorem meets_authenticateMsgs (hselected : app.getSelectedAuthenticators tx tx.msgs.length = .ok selected) {msg : Msg}
    {msgs : List Msg} (hmsgs : tx.msgs = msg :: msgs) {signers : List Bytes} (hsigners : msg.signers = .ok signers)
    (hpayer : signers[0]? = some feePayer) (hstore : ctx.store = c) (htrace : ctx.trace = []) :
    Attempt.Meets (Context.Metered ctx) (app.authenticateMsgs feePayer feeTx tx simulate selected 0 false tx.msgs)
      (fun as s => ∃ o first rest, as = first :: rest ∧ Ready app tx simulate c o first rest s)
      (app.Accounted tx simulate c) := by
  rw [hmsgs]
  have hfirst : tx.msgs[0]? = some msg := by rw [hmsgs]; rfl
  refine .bind ((meets_authenticateMsg hselected hfirst).weaken (fun _ h => h) (fun _ _ h => h)
    (fun _ h => h.accounted_unpaid hstore htrace)) ?_
  rintro first s ⟨hvouched, hsstore, hstrace⟩
  have hstill : Still ctx s := .of_event (by rw [hsstore]) hstrace ⟨by simp, by simp⟩
  -- the only signer of the first message pays the fees
  have hpays : first.account = feePayer := by
    obtain ⟨msg', hmsg', hsigner⟩ := hvouched.signer
    cases hfirst.symm.trans hmsg'
    cases hsigners.symm.trans hsigner
    exact Option.some.inj hpayer
  have hsettle : app.settleFees tx simulate false first.account feePayer = (do
      app.payFees tx simulate
      pure true) := if_pos ⟨rfl, hpays⟩
  rw [hsettle]
  refine Attempt.Meets.bind (Q := fun b t => b = true ∧ ∃ o, app.FeeRun tx simulate c.view o ∧
      t.store = .fresh (c.view.over o) ∧ t.trace = [.authenticate first.request none, .deductFee none])
    (.bind (meets_payFees.weaken (fun _ h => h) (fun _ _ h => h)
      (fun _ h => (hstill.trans h).accounted_unpaid hstore htrace)) (fun _ => .pure true ?_)) ?_ s (.refl s)
  · rintro t ⟨o, hrun, htstore, httrace⟩
    rw [hsstore, hstore] at hrun htstore
    exact ⟨rfl, o, hrun, htstore, by rw [httrace, hstrace, htrace]; rfl⟩
  rintro paid t ⟨rfl, o, hrun, htstore, httrace⟩
  have hpaid : ∀ t', Still t t' → app.Accounted tx simulate c t' := by
    intro t' ht'
    refine ht'.accounted_paid hrun (by rw [htstore]; rfl) ?_ ?_ <;> rw [httrace]
    · rfl
    · simp
  refine Attempt.Meets.bind ((meets_authenticateMsgs_paid hselected msgs 1 t (fun j => ?_)).weaken (fun _ h => h)
    (fun _ _ h => h) hpaid) (fun rest => .pure _ ?_) t (.refl t)
  · rw [hmsgs, Nat.add_comm, List.getElem?_cons_succ]
  rintro u ⟨hlen, hrest, hustore, hutrace⟩
  refine ⟨o, first, rest, rfl, hrun, by rw [hmsgs, List.length_cons, List.length_cons, hlen], ?_, ?_, ?_, ?_⟩
  · rw [← hstore]
    exact hvouched
  · intro i a hi
    have h := hrest i a hi
    rwa [htstore, Cache.view_fresh, Nat.add_comm] at h
  · rw [hustore, htstore]
  · rw [hutrace, httrace]
    rfl

/-- The tracks and the next handler after every message is authenticated. -/
theorem meets_trackMsgs_next {o : Overlay StoreKey Bytes} {first : Authenticated μ} {rest : List (Authenticated μ)}
    (hready : Ready app tx simulate c o first rest ctx) (next : Effect μ) :
    Attempt.Meets (Context.Metered ctx) (do
        app.trackMsgs (first :: rest)
        callNext next)
      (fun _ s => app.Accounted tx simulate c s ∧ .next ∈ s.trace) (app.Accounted tx simulate c) := by
  have hpaid : ∀ s, Still ctx s → app.Accounted tx simulate c s := fun s hs =>
    hs.accounted_paid hready.run (by rw [hready.store_eq]; rfl) hready.deductions_eq hready.next_not_mem
  refine .bind ((meets_trackMsgs (first :: rest) ctx).weaken (fun _ h => h) (fun _ _ h => h) hpaid) ?_
  rintro - s ⟨tracks, htracked, hstore, htrace⟩
  -- whatever the next handler answers, the calls before it are complete
  have hlast : ∀ last (t : Context μ), t.store = s.store.extend last → t.trace = s.trace ++ [.next] →
      app.Accounted tx simulate c t ∧ .next ∈ t.trace := by
    intro last t htstore httrace
    have hnext : .next ∈ t.trace := by
      rw [httrace]
      simp
    have hbase : t.store.base = c.view.over o := by
      rw [htstore, Cache.base_extend, hstore, Cache.base_foldl_extend, hready.store_eq]
      rfl
    have hone : deductions t.trace = 1 := by
      have htracks : ((first :: rest).map (fun a => Event.track a.request none)).count (.deductFee none) = 0 := by
        apply List.count_eq_zero_of_not_mem
        simp
      have hctx := hready.deductions_eq
      unfold deductions at hctx ⊢
      rw [httrace, htrace, List.count_append, List.count_append, hctx, htracks]
      rfl
    refine ⟨⟨.paid o hone hready.run hbase, fun _ => ?_⟩, hnext⟩
    refine ⟨o, first, rest, tracks, last, hready.run, hready.length_eq, hready.vouched, hready.vouched_rest, ?_, ?_, ?_⟩
    · rw [hready.store_eq] at htracked
      exact htracked
    · rw [httrace, htrace, hready.trace_eq]
      simp
    · rw [htstore, hstore, hready.store_eq]
  have hrun := hlast (next s.store.view s.meter).1.1 (callNext next s).1 ?_ ?_
  · rcases hnext : callNext next s with ⟨t, _ | _⟩ <;> rw [hnext] at hrun
    · exact hrun.1
    · exact hrun
  · rfl
  · exact (Context.metered_setMeter { s with trace := s.trace ++ [.next] } _).trace

end Steps

theorem meets_authenticateTx (hstore : ctx.store = c) (htrace : ctx.trace = []) (next : Effect μ) :
    Attempt.Meets (Context.Metered ctx) (app.authenticateTx next tx simulate)
      (fun _ s => app.Accounted tx simulate c s ∧ .next ∈ s.trace) (app.Accounted tx simulate c) := by
  have hstill : ∀ s, Context.Metered ctx s → app.Accounted tx simulate c s :=
    fun s hs => (Still.of_metered hs).accounted_unpaid hstore htrace
  refine .bind_fact (.lift hstill) (fun msg hmsg => ?_)
  refine .bind_fact (.lift hstill) (fun feeTx _ => ?_)
  refine .bind_fact (.lift hstill) (fun signers hsigners => ?_)
  refine .bind_fact (.lift hstill) (fun feePayer hpayer => ?_)
  refine .bind_fact (.lift hstill) (fun selected hselected => ?_)
  cases hmsgs : tx.msgs with
  | nil =>
    rw [hmsgs] at hmsg
    cases hmsg
  | cons first msgs =>
    rw [hmsgs] at hmsg
    cases hmsg
    refine .bind (hmsgs ▸ meets_authenticateMsgs (liftErr_eq_ok.mp hselected) hmsgs (msgSigners_eq_ok.mp hsigners)
      (atIndex_eq_ok.mp hpayer) hstore htrace) ?_
    rintro as s ⟨o, first, rest, rfl, hready⟩
    exact meets_trackMsgs_next hready next s (.refl s)

end App

/-- Wherever the handler stops, the parent store has nothing of it, or exactly the one deduction of the fees with
what lay in the cache before; and when it calls the next handler, every message was authenticated and tracked. -/
theorem ante_handler_persists {μ : Type} (app : App μ) (store : Cache StoreKey Bytes) (gasMeter : μ) (memo : ActiveMemo)
    (tx : Tx) (simulate : Bool) (next : Effect μ) :
    let out := app.anteHandle next tx simulate (.start store gasMeter memo)
    app.Persisted tx simulate store out.1 ∧ (.next ∈ out.1.trace → app.Completed tx simulate store out.1) ∧
      (out.2 = .ok () → .next ∈ out.1.trace) := by
  have hstill : ∀ s, Context.Metered (Context.start store gasMeter memo) s → app.Accounted tx simulate store s :=
    fun s hs => (App.Still.of_metered hs).accounted_unpaid rfl rfl
  have hmeets : Attempt.Meets (Context.Metered (Context.start store gasMeter memo)) (app.anteHandle next tx simulate)
      (fun _ s => app.Accounted tx simulate store s ∧ .next ∈ s.trace) (app.Accounted tx simulate store) := by
    refine .bind_fact (.lift hstill) (fun _ _ => ?_)
    refine .bind_fact (Context.meets_query hstill) (fun params _ s hs => ?_)
    let payerCtx := { s with payerMeter := app.gas.newGasMeter params.maximumUnauthenticatedGas, onPayer := true }
    have hstore : payerCtx.store = store := hs.store
    exact (App.meets_authenticateTx hstore hs.trace next).mapFailure payerCtx (.refl payerCtx)
  have hout := hmeets (Context.start store gasMeter memo) (.refl _)
  rcases hrun : app.anteHandle next tx simulate (Context.start store gasMeter memo) with ⟨s, _ | _⟩
      <;> rw [hrun] at hout
  · exact ⟨hout.1, hout.2, fun h => nomatch h⟩
  · exact ⟨hout.1.1, hout.1.2, fun _ => hout.2⟩

/-- The two messages of the sample transaction reach the next handler. -/
theorem sampleTx_completed :
    (sampleApp true).Completed sampleTx false sampleContext.store
      ((sampleApp true).anteHandle (writes (text "bank", []) []) sampleTx false
        (.start sampleContext.store 0 sampleContext.memo)).1 :=
  (ante_handler_persists (sampleApp true) sampleContext.store 0 sampleContext.memo sampleTx false
    (writes (text "bank", []) [])).2.1 (by decide +kernel)

end Terpz.SmartAccount
