import Terpz.CwHooks.Keeper

/-! Isolation of hook contracts: what a hook should do whatever its contracts do, and the contracts with which
it does it. -/
namespace Terpz.CwHooks
open Lib PrefixStore

def Lookup.existing {α : Type} (l : Lookup α) : Option α :=
  match l.err with
  | none => l.found
  | some _ => none

def Hook.isStaking : Hook → Bool
  | .afterProposalSubmission _ | .afterProposalDeposit _ | .afterProposalVote ..
  | .afterProposalVotingPeriodEnded _ => false
  | _ => true

def Hook.keyPrefix (h : Hook) : Bytes := if h.isStaking then keyPrefixStaking else keyPrefixGov

namespace Keeper
variable {σ : Type} (k : Keeper σ)

/-- What a hook tells the contracts, if what it is about exists. -/
def message (s : σ) : Hook → Option SudoMsg
  | .afterValidatorCreated v => (k.validator s v).existing.map (fun v => .afterValidatorCreated (newValidator v))
  | .afterValidatorRemoved v => (k.validator s v).existing.map (fun v => .afterValidatorRemoved (newValidator v))
  | .beforeDelegationCreated d v =>
    (k.delegation s d v).existing.map (fun d => .beforeDelegationCreated (newDelegation d))
  | .beforeDelegationSharesModified d v =>
    (k.delegation s d v).existing.map (fun d => .beforeDelegationSharesModified (newDelegation d))
  | .afterDelegationModified d v =>
    (k.delegation s d v).existing.map (fun d => .afterDelegationModified (newDelegation d))
  | .beforeValidatorSlashed v f =>
    (k.validator s v).existing.map (fun v => .beforeValidatorSlashed (newValidatorSlashed v f))
  | .beforeValidatorModified v => (k.validator s v).existing.map (fun v => .beforeValidatorModified (newValidator v))
  | .afterValidatorBonded v => (k.validator s v).existing.map (fun v => .afterValidatorBonded (newValidator v))
  | .afterValidatorBeginUnbonding v =>
    (k.validator s v).existing.map (fun v => .afterValidatorBeginUnbonding (newValidator v))
  | .beforeDelegationRemoved d v =>
    (k.delegation s d v).existing.map (fun d => .beforeDelegationRemoved (newDelegation d))
  | .afterProposalSubmission p => (k.proposal s p).toOption.map (fun p => .afterProposalSubmission (newProposal p))
  | .afterProposalDeposit p => (k.proposal s p).toOption.map (fun p => .afterProposalDeposit (newProposal p))
  | .afterProposalVote p v => (k.vote s p v).toOption.map (fun v => .afterProposalVote (newVote v))
  | .afterProposalVotingPeriodEnded p => some (.afterProposalVotingPeriodEnded (signedDecimal p.toInt64.toInt))

/-- Every contract in turn, where one that fails leaves the state as it found it. -/
def isolatedRun (msgBz : Bytes) (gasLimit : UInt64) : List Bytes → σ → σ
  | [], s => s
  | c :: cs, s =>
    match k.sudoContract c msgBz gasLimit s with
    | (s', .ok ()) => isolatedRun msgBz gasLimit cs s'
    | (_, .error _) => isolatedRun msgBz gasLimit cs s

/-- A staking hook in the first blocks. -/
def Asleep (hook : Hook) : Prop := hook.isStaking = true ∧ k.blockHeight ≤ skipUntilHeight

instance (hook : Hook) : Decidable (k.Asleep hook) := inferInstanceAs (Decidable (_ ∧ _))

/-- The hook returns. If it notifies at all, it has called every registered contract once with the gas limit of its
own, and keeps nothing of the contracts that failed. -/
structure Isolated (hook : Hook) (msg : SudoMsg) (s : σ) : Prop where
  returns : ∀ e, (k.hook hook ⟨s, []⟩).2 ≠ .error (.panic e)
  called : ¬ k.Asleep hook → (k.hook hook ⟨s, []⟩).1.calls =
    (k.getAllContracts s hook.keyPrefix).map (fun c => ⟨c, k.marshal msg, k.contractGasLimit s⟩)
  once : (k.hook hook ⟨s, []⟩).1.calls.Nodup
  state : ¬ k.Asleep hook → (k.hook hook ⟨s, []⟩).1.state =
    k.isolatedRun (k.marshal msg) (k.contractGasLimit s) (k.getAllContracts s hook.keyPrefix) s

/-- Contracts that succeed when they are called in turn; the last one may fail with an error, if it wrote nothing. -/
def Tame (msgBz : Bytes) (gasLimit : UInt64) : List Bytes → σ → Prop
  | [], _ => True
  | c :: cs, s =>
    match k.sudoContract c msgBz gasLimit s with
    | (s', .ok ()) => Tame msgBz gasLimit cs s'
    | (s', .error (.err _)) => cs = [] ∧ s' = s
    | (_, .error (.panic _)) => False

variable {k} {s : σ} {msg : SudoMsg}

theorem getAllContracts_nodup (s : σ) (keyPrefix : Bytes) : (k.getAllContracts s keyPrefix).Nodup := by
  refine List.Nodup.map_on ?_ (iteratePrefix_nodup _ _)
  rintro ⟨key, v⟩ he ⟨key', v'⟩ he' hdrop
  obtain ⟨⟨rest, rfl⟩, hget⟩ := mem_iteratePrefix.mp he
  obtain ⟨⟨rest', rfl⟩, hget'⟩ := mem_iteratePrefix.mp he'
  simp only [List.drop_left] at hdrop
  subst hdrop
  rw [hget] at hget'
  cases hget'
  rfl

section Reduction

/-- What a hook does with the outcome of the calls: staking hooks return it, governance hooks print an error. -/
def finish (k : Keeper σ) (hook : Hook) (r : Except Failure Unit) : Except Failure Unit :=
  if hook.isStaking then r else k.printError r

private theorem existing_eq {α : Type} {l : Lookup α} {a : α} (h : l.existing = some a) :
    l.err = none ∧ l.found = some a := by
  unfold Lookup.existing at h
  split at h
  · rename_i he
    exact ⟨he, h⟩
  · cases h

variable (s) in
private theorem stakingHook_eq {α : Type} {lookup : σ → Lookup α} (onMissing : Option Err → Except Failure Unit)
    {f : α → SudoMsg} (calls : List Call) (h : (lookup s).existing.map f = some msg) :
    k.stakingHook lookup onMissing f ⟨s, calls⟩ =
      if k.blockHeight ≤ skipUntilHeight then (⟨s, calls⟩, .ok ())
      else k.executeMessageOnContracts keyPrefixStaking (k.marshal msg) ⟨s, calls⟩ := by
  obtain ⟨a, ha, rfl⟩ := Option.map_eq_some_iff.mp h
  obtain ⟨herr, hfound⟩ := existing_eq ha
  simp only [stakingHook, herr, hfound]

variable (s) in
private theorem govHook_eq {α : Type} {lookup : σ → Except Err α} {f : α → SudoMsg}
    (calls : List Call) (h : (lookup s).toOption.map f = some msg) :
    k.govHook lookup f ⟨s, calls⟩ = k.notifyGov msg ⟨s, calls⟩ := by
  obtain ⟨a, ha, rfl⟩ := Option.map_eq_some_iff.mp h
  cases hl : lookup s with
  | error e =>
    rw [hl] at ha
    cases ha
  | ok b =>
    rw [hl] at ha
    cases ha
    simp only [govHook, hl]

/-- Every hook whose subject exists calls the contracts of its kind, unless it is asleep. -/
theorem hook_eq {hook : Hook} (h : k.message s hook = some msg) (calls : List Call) : k.hook hook ⟨s, calls⟩ =
    if k.Asleep hook then (⟨s, calls⟩, .ok ())
    else
      let out := k.executeMessageOnContracts hook.keyPrefix (k.marshal msg) ⟨s, calls⟩
      (out.1, k.finish hook out.2) := by
  cases hook with
  | afterProposalSubmission p =>
    simp only [Keeper.hook, afterProposalSubmission]
    exact govHook_eq s calls h
  | afterProposalDeposit p =>
    simp only [Keeper.hook, afterProposalDeposit]
    exact govHook_eq s calls h
  | afterProposalVote p v =>
    simp only [Keeper.hook, afterProposalVote]
    exact govHook_eq s calls h
  | afterProposalVotingPeriodEnded p =>
    cases h
    rfl
  | _ =>
    simp only [Keeper.hook, afterValidatorCreated, afterValidatorRemoved, beforeDelegationCreated,
      beforeDelegationSharesModified, afterDelegationModified, beforeValidatorSlashed, beforeValidatorModified,
      afterValidatorBonded, afterValidatorBeginUnbonding, beforeDelegationRemoved]
    simp only [message] at h
    refine (stakingHook_eq s _ calls h).trans ?_
    simp [Asleep, finish, Hook.keyPrefix, Hook.isStaking]

end Reduction

section Loop
variable {msgBz : Bytes} {gasLimit : UInt64}

/-- What isolation asks of the loop over the contracts. -/
def Isolates (k : Keeper σ) (msgBz : Bytes) (gasLimit : UInt64) (cs : List Bytes) (s : σ) (calls : List Call)
    (out : Context σ × Except Failure Unit) : Prop :=
  (∀ e, out.2 ≠ .error (.panic e)) ∧ out.1.calls = calls ++ cs.map (fun c => ⟨c, msgBz, gasLimit⟩) ∧
    out.1.state = k.isolatedRun msgBz gasLimit cs s

theorem callContracts_iff (cs : List Bytes) (s : σ) (calls : List Call) :
    k.Isolates msgBz gasLimit cs s calls (k.callContracts msgBz gasLimit cs ⟨s, calls⟩) ↔
        k.Tame msgBz gasLimit cs s := by
  induction cs generalizing s calls with
  | nil => simp [Isolates, callContracts, isolatedRun, Tame]
  | cons c cs ih =>
    have hrun : k.callContracts msgBz gasLimit (c :: cs) ⟨s, calls⟩ =
        match k.sudoContract c msgBz gasLimit s with
        | (s', .ok ()) => k.callContracts msgBz gasLimit cs ⟨s', calls ++ [⟨c, msgBz, gasLimit⟩]⟩
        | (s', .error e) => (⟨s', calls ++ [⟨c, msgBz, gasLimit⟩]⟩, .error e) := by
      rw [callContracts, Attempt.bind_apply, sudoCall]
      rcases k.sudoContract c msgBz gasLimit s with ⟨s', _ | _⟩ <;> rfl
    rw [hrun, Isolates, isolatedRun, Tame]
    rcases k.sudoContract c msgBz gasLimit s with ⟨s', (e | e) | ⟨⟩⟩
    · -- an error: nothing after this contract is called
      constructor
      · rintro ⟨-, hcalls, hstate⟩
        have hnil : cs = [] := by simpa using hcalls
        subst hnil
        exact ⟨rfl, hstate⟩
      · rintro ⟨rfl, rfl⟩
        exact ⟨fun _ => by simp, by simp, rfl⟩
    · constructor
      · rintro ⟨hpanic, -⟩
        exact hpanic e rfl
      · exact False.elim
    · have hrest := ih s' (calls ++ [⟨c, msgBz, gasLimit⟩])
      rw [Isolates, List.append_assoc] at hrest
      exact hrest

end Loop

private theorem finish_panic {hook : Hook} {r : Except Failure Unit} {e : Err} :
    k.finish hook r = .error (.panic e) ↔ r = .error (.panic e) := by
  unfold finish printError
  split
  · rfl
  · split
    · split <;> simp
    · rfl

end Keeper

open Keeper in
/-- A hook for something that exists isolates its contracts exactly if it is still asleep or they are tame. -/
theorem hooks_isolated_iff {σ : Type} (k : Keeper σ) (hook : Hook) (msg : SudoMsg) (s : σ)
    (h : k.message s hook = some msg) : k.Isolated hook msg s ↔ k.Asleep hook ∨
      k.Tame (k.marshal msg) (k.contractGasLimit s) (k.getAllContracts s hook.keyPrefix) s := by
  have hrun := hook_eq h []
  by_cases hasleep : k.Asleep hook
  · rw [if_pos hasleep] at hrun
    refine iff_of_true ⟨?_, fun hawake => absurd hasleep hawake, ?_, fun hawake => absurd hasleep hawake⟩ (.inl hasleep)
    · rw [hrun]
      exact fun _ => by simp
    · rw [hrun]
      exact List.nodup_nil
  · rw [if_neg hasleep] at hrun
    rw [or_iff_right hasleep, ← callContracts_iff (k.getAllContracts s hook.keyPrefix) s []]
    constructor
    · intro hiso
      refine ⟨?_, ?_, ?_⟩
      · intro e hpanic
        refine hiso.returns e ?_
        rw [hrun]
        exact finish_panic.mpr hpanic
      · have hcalled := hiso.called hasleep
        rw [hrun] at hcalled
        exact hcalled
      · have hstate := hiso.state hasleep
        rw [hrun] at hstate
        exact hstate
    · rintro ⟨hpanic, hcalls, hstate⟩
      refine ⟨?_, fun _ => ?_, ?_, fun _ => ?_⟩ <;> rw [hrun]
      · exact fun e he => hpanic e (finish_panic.mp he)
      · exact hcalls
      · refine Eq.mpr (congrArg List.Nodup hcalls) ?_
        exact (getAllContracts_nodup s hook.keyPrefix).map (fun a b hab => congrArg Call.contract hab)
      · exact hstate

/-- Contract `5` writes and fails, `6` writes until its gas is gone, and the others write and succeed. -/
def sampleContract (c : Bytes) (_ : Bytes) (_ : UInt64) : Attempt Nat Failure Unit := fun s =>
  if c = [5] then (s + 10, .error (.err ⟨.wasm, text "failed"⟩))
  else if c = [6] then (s + 100, .error (.panic ⟨.outOfGas, text "out of gas"⟩))
  else (s + 1, .ok ())

def sampleValidator : ValidatorI :=
  ⟨text "val", text "terpvaloper1qyqszqgpqyqszqgpqyqszqgpqyqszqgpyxdx87", 0, 7, .bonded⟩

/-- A chain whose state is a number, with the given contracts registered for both kinds of hook. -/
def sampleKeeper (registered : List Bytes) : Keeper Nat where
  blockHeight := 3
  store _ := registered.foldl (fun st c => (st.set (keyPrefixStaking ++ c) []).set (keyPrefixGov ++ c) [])
    (set ∅ paramsKey [1])
  unmarshalParams _ := 100000
  marshal _ := []
  sudoContract := sampleContract
  validator _ v := if v = [1] then ⟨some sampleValidator, none⟩ else ⟨none, none⟩
  delegation _ _ _ := ⟨none, some ⟨.notFound, text "no delegation"⟩⟩
  proposal _ p :=
    if p = 1 then .ok ⟨1, text "terp1qyqszqgpqyqszqgpqyqszqgpqyqszqgp4egj80", 1, 5, [], text "title", []⟩
    else .error ⟨.notFound, text "not found"⟩
  vote _ _ _ := .error ⟨.notFound, text "not found"⟩
  stdout := none

def sampleBonded : SudoMsg := .afterValidatorBonded (newValidator sampleValidator)

theorem good_contracts_isolated : (sampleKeeper [[7], [8]]).Isolated (.afterValidatorBonded [1]) sampleBonded 0 := by
  have hregistered : (sampleKeeper [[7], [8]]).getAllContracts 0 keyPrefixStaking = [[7], [8]] := by decide +kernel
  refine (hooks_isolated_iff (sampleKeeper [[7], [8]]) (.afterValidatorBonded [1]) sampleBonded 0 rfl).mpr (.inr ?_)
  rw [show (Hook.afterValidatorBonded [1]).keyPrefix = keyPrefixStaking from rfl, hregistered]
  trivial

/-- A contract out of gas panics through the hook; one that fails keeps its writes, and the next is not called. -/
theorem hook_contracts_break_out :
    ((sampleKeeper [[6]]).hook (.afterValidatorBonded [1]) ⟨0, []⟩).2 = .error (.panic ⟨.outOfGas, text "out of gas"⟩) ∧
    (sampleKeeper [[5], [7]]).getAllContracts 0 keyPrefixGov = [[5], [7]] ∧
    ((sampleKeeper [[5], [7]]).hook (.afterProposalSubmission 1) ⟨0, []⟩).1.calls = [⟨[5], [], 100000⟩] ∧
    ((sampleKeeper [[5], [7]]).hook (.afterProposalSubmission 1) ⟨0, []⟩).1.state = 10 ∧
    ¬ (sampleKeeper [[6]]).Isolated (.afterValidatorBonded [1]) sampleBonded 0 := by
  have hpanic : ((sampleKeeper [[6]]).hook (.afterValidatorBonded [1]) ⟨0, []⟩).2 =
      .error (.panic ⟨.outOfGas, text "out of gas"⟩) := by decide +kernel
  exact ⟨hpanic, by decide +kernel, by decide +kernel, by decide +kernel, fun h => h.returns _ hpanic⟩

end Terpz.CwHooks
