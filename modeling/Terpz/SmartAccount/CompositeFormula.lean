import Terpz.Lib.Formula
import Terpz.SmartAccount.Authenticator.Composite

/-! A composite authenticator means its formula: conjunctions and disjunctions over the leaves, each asked
under the id of its path and with its part of the signature. -/
namespace Terpz.SmartAccount
open Lib

namespace Authenticator
variable {κ ν : Type} [DecidableEq κ] (cdc : Codec)

mutual
/-- The formula of a tree at a path, with the paths of the leaves as atoms. -/
def formula (path : List Nat) : Authenticator κ ν → Formula (List Nat)
  | .leaf _ => .atom path
  | .allOf _ subs => .all (formulas path 0 subs)
  | .anyOf _ subs => .any (formulas path 0 subs)

def formulas (path : List Nat) (i : Nat) : List (Authenticator κ ν) → List (Formula (List Nat))
  | [] => []
  | t :: ts => t.formula (path ++ [i]) :: formulas path (i + 1) ts
end

/-- The sub-authenticators of a node and how it hands out signatures. -/
def node : Authenticator κ ν → Option (SignatureAssignment × List (Authenticator κ ν))
  | .leaf _ => none
  | .allOf a subs => some (a, subs)
  | .anyOf a subs => some (a, subs)

/-- The signature a node passes to its sub-authenticator `i`; none when the split fails. -/
def subSignature (a : SignatureAssignment) (signature : Bytes) (total i : Nat) : Option Bytes :=
  match a with
  | .single => some signature
  | .partitioned => (cdc.splitSignatures signature total).toOption.bind (fun signatures => signatures[i]?)

/-- The leaf at a path and the request it is asked with. -/
def asked (t : Authenticator κ ν) (request : AuthenticationRequest) :
    List Nat → Option (Leaf κ ν × AuthenticationRequest)
  | [] =>
    match t with
    | .leaf l => some (l, request)
    | _ => none
  | i :: path =>
    match t.node with
    | none => none
    | some (a, subs) =>
      match subs[i]?, subSignature cdc a request.signature subs.length i with
      | some sub, some signature =>
        sub.asked { request with authenticatorId := compositeId request.authenticatorId i, signature := signature } path
      | _, _ => none

/-- The leaf exists, its signature could be split off, and it accepts its request. -/
def authenticates (v : View κ ν) : Option (Leaf κ ν × AuthenticationRequest) → Bool
  | none => false
  | some (l, r) => (l.authenticate r v).2.isOk

/-- The leaf at a path confirms on the store so far; its writes are added and logged. -/
def confirms (path : List Nat) (s : View κ ν × List (List Nat × Writes κ ν)) :
    Option (Leaf κ ν × AuthenticationRequest) → Option (View κ ν × List (List Nat × Writes κ ν))
  | none => none
  | some (l, r) =>
    match l.confirmExecution r s.1 with
    | (ws, .ok _) => some (overwrite s.1 ws, s.2 ++ [(path, ws)])
    | (_, .error _) => none

/-- The writes of the logged leaves, in order. -/
def logged (log : List (List Nat × Writes κ ν)) : Writes κ ν := log.flatMap Prod.snd

mutual
def leaves : Authenticator κ ν → List (Leaf κ ν)
  | .leaf l => [l]
  | .allOf _ subs => leavesOf subs
  | .anyOf _ subs => leavesOf subs

def leavesOf : List (Authenticator κ ν) → List (Leaf κ ν)
  | [] => []
  | t :: ts => t.leaves ++ leavesOf ts
end

/-- Every node has two sub-authenticators or more. -/
inductive Built : Authenticator κ ν → Prop where
  | leaf (l : Leaf κ ν) : Built (.leaf l)
  | allOf (a : SignatureAssignment) {subs : List (Authenticator κ ν)} (h : 2 ≤ subs.length) (hs : ∀ t ∈ subs, Built t) :
    Built (.allOf a subs)
  | anyOf (a : SignatureAssignment) {subs : List (Authenticator κ ν)} (h : 2 ≤ subs.length) (hs : ∀ t ∈ subs, Built t) :
    Built (.anyOf a subs)

omit [DecidableEq κ] in
theorem mem_leavesOf {subs : List (Authenticator κ ν)} {l : Leaf κ ν} :
    l ∈ leavesOf subs ↔ ∃ t ∈ subs, l ∈ t.leaves := by
  induction subs with
  | nil => simp [leavesOf]
  | cons t ts ih => simp [leavesOf, ih]

section Asked
variable {cdc} {a : SignatureAssignment} {request : AuthenticationRequest} {signatures : List Bytes}

/-- The loop's own updates of the request do not show in the next one. -/
theorem forSub_forSub (request : AuthenticationRequest) (a : SignatureAssignment) (signatures : List Bytes)
    (baseId : Text)
    (i j : Nat) : (request.forSub a signatures baseId i).forSub a signatures baseId j =
        request.forSub a signatures baseId j := by
  cases a <;> rfl

theorem subSignature_of_ok {total i : Nat} (h : cdc.signaturesFor a request.signature total = .ok signatures)
    (hi : i < total) : subSignature cdc a request.signature total i =
      some (request.forSub a signatures request.authenticatorId i).signature := by
  cases a with
  | single => rfl
  | partitioned =>
    have hsplit : cdc.splitSignatures request.signature total = .ok signatures := h
    have hlen : signatures.length = total := by
      unfold Codec.splitSignatures at hsplit
      split at hsplit
      · cases hsplit
      · split at hsplit
        · cases hsplit
        · next hne =>
          cases hsplit
          exact not_not.mp hne
    have hget : signatures[i]? = some (signatures.getD i []) := by
      rw [List.getD_eq_getElem?_getD, List.getElem?_eq_getElem (hlen ▸ hi), Option.getD_some]
    simp only [subSignature, hsplit, Except.toOption, Option.bind_some, hget, AuthenticationRequest.forSub]

theorem subSignature_of_error {total : Nat} {e : Err} (h : cdc.signaturesFor a request.signature total = .error e)
    (i : Nat) :
    subSignature cdc a request.signature total i = none := by
  cases a with
  | single => cases h
  | partitioned =>
    have hsplit : cdc.splitSignatures request.signature total = .error e := h
    simp only [subSignature, hsplit, Except.toOption, Option.bind_none]

variable {t : Authenticator κ ν} {subs : List (Authenticator κ ν)}

omit [DecidableEq κ] in
/-- A node passes the question on with the request of its loop. -/
theorem asked_sub (ht : t.node = some (a, subs))
    (h : cdc.signaturesFor a request.signature subs.length = .ok signatures)
    {i : Nat} {sub : Authenticator κ ν} (hi : subs[i]? = some sub) (path : List Nat) :
    t.asked cdc request (i :: path) =
      sub.asked cdc (request.forSub a signatures request.authenticatorId i) path := by
  obtain ⟨hlt, -⟩ := List.getElem?_eq_some_iff.mp hi
  rw [asked, ht]
  simp only [hi, subSignature_of_ok h hlt]
  cases a <;> rfl

omit [DecidableEq κ] in
/-- Below a node whose split fails no leaf is asked. -/
theorem asked_of_error (ht : t.node = some (a, subs)) {e : Err}
    (h : cdc.signaturesFor a request.signature subs.length = .error e) (path : List Nat) :
    t.asked cdc request path = none := by
  cases path with
  | nil => cases t <;> simp_all [asked, node]
  | cons i path =>
    rw [asked, ht]
    simp only [subSignature_of_error h i]
    cases subs[i]? <;> rfl

end Asked

omit [DecidableEq κ] in
/-- A tree none of whose leaves can be asked does not hold. -/
theorem evalIn_of_never {σ : Type} (step : σ → List Nat → Option σ) {t : Authenticator κ ν} (ht : t.Built)
    {p : List Nat}
    (hstep : ∀ s q, step s (p ++ q) = none) (s : σ) : (t.formula p).evalIn step s = none := by
  induction ht generalizing p with
  | leaf l =>
    have h := hstep s []
    rwa [List.append_nil] at h
  | @allOf a subs h hs ih =>
    cases subs with
    | nil => simp at h
    | cons t ts =>
      have hfirst := ih t List.mem_cons_self (p := p ++ [0]) (fun s q => by rw [List.append_assoc]; exact hstep s _)
      rw [formula, formulas, Formula.evalIn, Formula.evalInAll, hfirst, Option.bind_none]
  | @anyOf a subs h hs ih =>
    have hany : ∀ (ts : List (Authenticator κ ν)) (i : Nat), (∀ t ∈ ts, t ∈ subs) →
        Formula.evalInAny step (formulas p i ts) s = none := by
      intro ts
      induction ts with
      | nil => exact fun _ _ => rfl
      | cons t ts iht =>
        intro i hts
        have hfirst := ih t (hts t List.mem_cons_self) (p := p ++ [i])
          (fun s q => by rw [List.append_assoc]; exact hstep s _)
        rw [formulas, Formula.evalInAny, hfirst, Option.none_or]
        exact iht (i + 1) (fun t' ht' => hts t' (List.mem_cons_of_mem _ ht'))
    exact hany subs 0 (fun t ht => ht)

omit [DecidableEq κ] in
theorem eval_of_never {f : List Nat → Bool} {t : Authenticator κ ν} (ht : t.Built) {p : List Nat}
    (hf : ∀ q, f (p ++ q) = false) : (t.formula p).eval f = false := by
  have h := evalIn_of_never (fun (s : Unit) q => if f q then some s else none) ht
    (fun s q => by rw [hf q]; rfl) ()
  rw [Formula.evalIn_const] at h
  cases hv : (t.formula p).eval f with
  | false => rfl
  | true =>
    rw [hv] at h
    cases h

section Authenticate
variable {cdc} {ctx : Cache κ ν} {f : List Nat → Bool}

/-- The tree leaves the context alone and answers with its formula, wherever it sits in a larger one. -/
def Answers (cdc : Codec) (ctx : Cache κ ν) (f : List Nat → Bool) (t : Authenticator κ ν) : Prop :=
  ∀ p request, (∀ q, f (p ++ q) = authenticates ctx.view (t.asked cdc request q)) →
    (t.authenticate cdc ctx request).1 = ctx ∧ (t.authenticate cdc ctx request).2.isOk = (t.formula p).eval f

variable {a : SignatureAssignment} {signatures : List Bytes} {baseId : Text} {p : List Nat}

private theorem authenticateAll_eq {subs : List (Authenticator κ ν)} (ih : ∀ t ∈ subs, Answers cdc ctx f t) (i : Nat)
    (request : AuthenticationRequest)
    (hf : ∀ j t q, subs[j]? = some t →
      f (p ++ (i + j) :: q) = authenticates ctx.view (t.asked cdc (request.forSub a signatures baseId (i + j)) q)) :
    (authenticateAll cdc a signatures baseId i ctx request subs).1 = ctx ∧
      (authenticateAll cdc a signatures baseId i ctx request subs).2.isOk = Formula.evalAll f (formulas p i subs) := by
  induction subs generalizing i request with
  | nil => exact ⟨rfl, rfl⟩
  | cons t ts iht =>
    have hfirst := ih t List.mem_cons_self (p ++ [i]) (request.forSub a signatures baseId i)
      (fun q => by rw [List.append_assoc]; exact hf 0 t q rfl)
    have hrest := iht (fun t' ht' => ih t' (List.mem_cons_of_mem _ ht')) (i + 1) (request.forSub a signatures baseId i)
      (fun j t' q hj => by
        rw [forSub_forSub, Nat.add_assoc, Nat.add_comm 1 j]
        exact hf (j + 1) t' q hj)
    rw [authenticateAll, formulas, Formula.evalAll]
    revert hfirst
    generalize t.authenticate cdc ctx (request.forSub a signatures baseId i) = out
    rintro ⟨hctx, hok⟩
    obtain ⟨ctx', r⟩ := out
    obtain rfl : ctx' = ctx := hctx
    cases r with
    | error e =>
      rw [← hok]
      exact ⟨rfl, rfl⟩
    | ok u =>
      rw [← hok]
      exact hrest

private theorem authenticateAny_eq {subs : List (Authenticator κ ν)} (ih : ∀ t ∈ subs, Answers cdc ctx f t) (i : Nat)
    (request : AuthenticationRequest) (errs : List Text) (hne : errs ≠ [] ∨ subs ≠ [])
    (hf : ∀ j t q, subs[j]? = some t →
      f (p ++ (i + j) :: q) = authenticates ctx.view (t.asked cdc (request.forSub a signatures baseId (i + j)) q)) :
    (authenticateAny cdc a signatures baseId i ctx request errs subs).1 = ctx ∧
      (authenticateAny cdc a signatures baseId i ctx request errs subs).2.isOk =
        Formula.evalAny f (formulas p i subs) := by
  induction subs generalizing i request errs with
  | nil =>
    have herrs : errs ≠ [] := hne.resolve_right (fun h => h rfl)
    rw [authenticateAny, if_neg herrs]
    exact ⟨rfl, rfl⟩
  | cons t ts iht =>
    have hfirst := ih t List.mem_cons_self (p ++ [i]) (request.forSub a signatures baseId i)
      (fun q => by rw [List.append_assoc]; exact hf 0 t q rfl)
    have hrest (e : Err) := iht (fun t' ht' => ih t' (List.mem_cons_of_mem _ ht')) (i + 1)
      (request.forSub a signatures baseId i) (errs ++ [subError t.type (compositeId baseId i) e]) (.inl (by simp))
      (fun j t' q hj => by
        rw [forSub_forSub, Nat.add_assoc, Nat.add_comm 1 j]
        exact hf (j + 1) t' q hj)
    rw [authenticateAny, formulas, Formula.evalAny]
    revert hfirst
    generalize t.authenticate cdc ctx (request.forSub a signatures baseId i) = out
    rintro ⟨hctx, hok⟩
    obtain ⟨ctx', r⟩ := out
    obtain rfl : ctx' = ctx := hctx
    cases r with
    | error e =>
      rw [← hok]
      exact hrest e
    | ok u =>
      rw [← hok]
      exact ⟨rfl, rfl⟩

/-- A tree whose leaves do not write when asked answers with its formula. -/
theorem answers_of_built {t : Authenticator κ ν} (ht : t.Built)
    (hpure : ∀ l ∈ t.leaves, ∀ r v, (l.authenticate r v).1 = []) : Answers cdc ctx f t := by
  induction ht with
  | leaf l =>
    intro p request hf
    have hl := hf []
    rw [List.append_nil] at hl
    refine ⟨?_, hl.symm⟩
    rw [authenticate, perform, hpure l List.mem_cons_self]
    rfl
  | @allOf a subs h hs ih =>
    intro p request hf
    have hlen : ¬ subs.length = 0 := by omega
    rw [authenticate, if_neg hlen]
    cases hsig : cdc.signaturesFor a request.signature subs.length with
    | error e =>
      refine ⟨rfl, (eval_of_never (Built.allOf a h hs) (fun q => ?_)).symm⟩
      rw [hf q, asked_of_error rfl hsig]
      rfl
    | ok signatures =>
      refine authenticateAll_eq (fun t ht => ih t ht (fun l hl => hpure l (mem_leavesOf.mpr ⟨t, ht, hl⟩))) 0 request ?_
      intro j t q hj
      rw [hf, Nat.zero_add, asked_sub rfl hsig hj]
  | @anyOf a subs h hs ih =>
    intro p request hf
    have hlen : ¬ subs.length = 0 := by omega
    rw [authenticate, if_neg hlen]
    cases hsig : cdc.signaturesFor a request.signature subs.length with
    | error e =>
      refine ⟨rfl, (eval_of_never (Built.anyOf a h hs) (fun q => ?_)).symm⟩
      rw [hf q, asked_of_error rfl hsig]
      rfl
    | ok signatures =>
      refine authenticateAny_eq (fun t ht => ih t ht (fun l hl => hpure l (mem_leavesOf.mpr ⟨t, ht, hl⟩))) 0 request []
        (.inr (fun hnil => hlen (by rw [hnil]; rfl))) ?_
      intro j t q hj
      rw [hf, Nat.zero_add, asked_sub rfl hsig hj]

end Authenticate

section Confirm
variable {cdc}

/-- How a run of `ConfirmExecution` on a context ends when its formula ends with `result`: with the writes of
the leaves logged since, in order, or with an error. -/
def Ends (ctx : Cache κ ν) (log : List (List Nat × Writes κ ν)) (out : Cache κ ν × Except Err Unit) :
    Option (View κ ν × List (List Nat × Writes κ ν)) → Prop
  | none => out.2.isOk = false
  | some s => ∃ new, s = ((ctx.puts (logged new)).view, log ++ new) ∧ out = (ctx.puts (logged new), .ok ())

/-- What ends a run after some leaves were logged ends the run that logged them. -/
theorem Ends.after {ctx : Cache κ ν} {log new : List (List Nat × Writes κ ν)} {out : Cache κ ν × Except Err Unit}
    {result : Option (View κ ν × List (List Nat × Writes κ ν))}
    (h : Ends (ctx.puts (logged new)) (log ++ new) out result) :
    Ends ctx log out result := by
  cases result with
  | none => exact h
  | some s =>
    obtain ⟨new', rfl, rfl⟩ := h
    have hlogged : logged (new ++ new') = logged new ++ logged new' := List.flatMap_append
    refine ⟨new ++ new', ?_, ?_⟩
    · rw [hlogged, Cache.puts_append, List.append_assoc]
    · rw [hlogged, Cache.puts_append]

/-- The tree confirms as its formula does, wherever it sits in a larger one. -/
def Confirms (cdc : Codec) (step : View κ ν × List (List Nat × Writes κ ν) → List Nat →
    Option (View κ ν × List (List Nat × Writes κ ν))) (t : Authenticator κ ν) : Prop :=
  ∀ p request, (∀ s q, step s (p ++ q) = confirms (p ++ q) s (t.asked cdc request q)) → ∀ ctx log,
    Ends ctx log (t.confirmExecution cdc ctx request) ((t.formula p).evalIn step (ctx.view, log))

variable {step : View κ ν × List (List Nat × Writes κ ν) → List Nat → Option (View κ ν × List (List Nat × Writes κ ν))}
  {a : SignatureAssignment} {signatures : List Bytes} {baseId : Text} {p : List Nat}

private theorem confirmAll_ends {subs : List (Authenticator κ ν)} (ih : ∀ t ∈ subs, Confirms cdc step t) (i : Nat)
    (request : AuthenticationRequest)
    (hstep : ∀ j t s q, subs[j]? = some t → step s (p ++ (i + j) :: q) =
      confirms (p ++ (i + j) :: q) s (t.asked cdc (request.forSub a signatures baseId (i + j)) q))
    (ctx : Cache κ ν) (log : List (List Nat × Writes κ ν)) :
    Ends ctx log (confirmAll cdc a signatures baseId i ctx request subs)
      (Formula.evalInAll step (formulas p i subs) (ctx.view, log)) := by
  induction subs generalizing i request ctx log with
  | nil => exact ⟨[], by simp [logged], rfl⟩
  | cons t ts iht =>
    have hfirst := ih t List.mem_cons_self (p ++ [i]) (request.forSub a signatures baseId i)
      (fun s q => by rw [List.append_assoc]; exact hstep 0 t s q rfl) ctx log
    have hrest := iht (fun t' ht' => ih t' (List.mem_cons_of_mem _ ht')) (i + 1) (request.forSub a signatures baseId i)
      (fun j t' s q hj => by
        rw [forSub_forSub, Nat.add_assoc, Nat.add_comm 1 j]
        exact hstep (j + 1) t' s q hj)
    rw [confirmAll, formulas, Formula.evalInAll]
    revert hfirst
    generalize t.confirmExecution cdc ctx (request.forSub a signatures baseId i) = out
    obtain ⟨ctx', r⟩ := out
    cases (t.formula (p ++ [i])).evalIn step (ctx.view, log) with
    | none =>
      intro hfirst
      cases r with
      | error e => rfl
      | ok u => cases hfirst
    | some s =>
      rintro ⟨new, rfl, hout⟩
      cases hout
      exact (hrest (ctx.puts (logged new)) (log ++ new)).after

private theorem confirmAny_ends {subs : List (Authenticator κ ν)} (ih : ∀ t ∈ subs, Confirms cdc step t) (i : Nat)
    (request : AuthenticationRequest) (errs : List Text)
    (hstep : ∀ j t s q, subs[j]? = some t → step s (p ++ (i + j) :: q) =
      confirms (p ++ (i + j) :: q) s (t.asked cdc (request.forSub a signatures baseId (i + j)) q))
    (ctx : Cache κ ν) (log : List (List Nat × Writes κ ν)) :
    Ends ctx log (confirmAny cdc a signatures baseId i ctx request errs subs)
      (Formula.evalInAny step (formulas p i subs) (ctx.view, log)) := by
  induction subs generalizing i request errs with
  | nil => rfl
  | cons t ts iht =>
    -- the sub-authenticator runs on a branch, which shows the same store
    have hfirst := ih t List.mem_cons_self (p ++ [i]) (request.forSub a signatures baseId i)
      (fun s q => by rw [List.append_assoc]; exact hstep 0 t s q rfl) ctx.branch log
    have hrest (e : Err) := iht (fun t' ht' => ih t' (List.mem_cons_of_mem _ ht')) (i + 1)
      (request.forSub a signatures baseId i) (errs ++ [subError t.type (compositeId baseId i) e])
      (fun j t' s q hj => by
        rw [forSub_forSub, Nat.add_assoc, Nat.add_comm 1 j]
        exact hstep (j + 1) t' s q hj)
    rw [confirmAny, formulas, Formula.evalInAny]
    rw [Cache.view_branch] at hfirst
    revert hfirst
    generalize t.confirmExecution cdc ctx.branch (request.forSub a signatures baseId i) = out
    obtain ⟨cacheCtx, r⟩ := out
    cases (t.formula (p ++ [i])).evalIn step (ctx.view, log) with
    | none =>
      intro hfirst
      cases r with
      | error e =>
        rw [Option.none_or]
        exact hrest e
      | ok u => cases hfirst
    | some s =>
      rintro ⟨new, rfl, hout⟩
      cases hout
      refine ⟨new, ?_, ?_⟩
      · rw [Cache.view_puts, Cache.view_puts, Cache.view_branch]
      · exact congrArg (fun c => (c, Except.ok ())) (Cache.merge_branch_puts ctx (logged new))

variable (cdc step) in
theorem confirms_of_built {t : Authenticator κ ν} (ht : t.Built) : Confirms cdc step t := by
  induction ht with
  | leaf l =>
    intro p request hstep ctx log
    have hl := hstep (ctx.view, log) []
    rw [List.append_nil] at hl
    rw [formula, Formula.evalIn, hl, asked, confirms, confirmExecution, perform]
    rcases l.confirmExecution request ctx.view with ⟨ws, e | u⟩
    · rfl
    · refine ⟨[(p, ws)], ?_, ?_⟩
      · simp [logged, Cache.view_puts]
      · simp [logged]
  | @allOf a subs h hs ih =>
    intro p request hstep ctx log
    rw [confirmExecution]
    cases hsig : cdc.signaturesFor a request.signature subs.length with
    | error e =>
      rw [evalIn_of_never step (Built.allOf a h hs) (fun s q => ?_)]
      · rfl
      · rw [hstep, asked_of_error rfl hsig]
        rfl
    | ok signatures =>
      refine confirmAll_ends ih 0 request ?_ ctx log
      intro j t s q hj
      rw [hstep, Nat.zero_add, asked_sub rfl hsig hj]
  | @anyOf a subs h hs ih =>
    intro p request hstep ctx log
    rw [confirmExecution]
    cases hsig : cdc.signaturesFor a request.signature subs.length with
    | error e =>
      rw [evalIn_of_never step (Built.anyOf a h hs) (fun s q => ?_)]
      · rfl
      · rw [hstep, asked_of_error rfl hsig]
        rfl
    | ok signatures =>
      refine confirmAny_ends ih 0 request [] ?_ ctx log
      intro j t s q hj
      rw [hstep, Nat.zero_add, asked_sub rfl hsig hj]

end Confirm

end Authenticator

namespace AuthenticatorManager
variable {κ ν : Type} {am : AuthenticatorManager κ ν} {cdc : Codec}

private theorem initializeSubs_ok {rec : Code κ ν → Bytes → Except Err (Authenticator κ ν)}
    {initDatas : List SubAuthenticatorInitData} {subs : List (Authenticator κ ν)}
    (h : initializeSubs am rec initDatas = .ok subs) : ∀ t ∈ subs, ∃ code config, rec code config = .ok t := by
  induction initDatas generalizing subs with
  | nil =>
    cases h
    exact fun t ht => nomatch ht
  | cons d ds ih =>
    obtain ⟨sub, hsub, h⟩ := bind_eq_ok.mp h
    obtain ⟨rest, hrest, h⟩ := bind_eq_ok.mp h
    cases h
    intro t ht
    rcases List.mem_cons.mp ht with rfl | ht
    · unfold initializeSub at hsub
      split at hsub
      · cases hsub
      · next code _ =>
        split at hsub
        · cases hsub
        · next hrec =>
          cases hsub
          exact ⟨code, d.config, hrec⟩
    · exact ih hrest t ht

private theorem initializeComposite_ok {rec : Code κ ν → Bytes → Except Err (Authenticator κ ν)} {name : Text}
    {config : Bytes} {subs : List (Authenticator κ ν)} (h : initializeComposite am cdc rec name config = .ok subs) :
    2 ≤ subs.length ∧ ∀ t ∈ subs, ∃ code config, rec code config = .ok t := by
  obtain ⟨initDatas, -, h⟩ := bind_eq_ok.mp h
  obtain ⟨_, hlen, h⟩ := bind_eq_ok.mp h
  obtain ⟨subs', hsubs, h⟩ := bind_eq_ok.mp h
  obtain ⟨_, hsame, h⟩ := bind_eq_ok.mp h
  cases h
  rw [failIf_eq_ok] at hlen hsame
  refine ⟨?_, initializeSubs_ok hsubs⟩
  rw [not_not.mp hsame]
  omega

/-- What `Initialize` builds has two sub-authenticators or more at every node. -/
theorem built_of_initialize {n : Nat} {code : Code κ ν} {config : Bytes} {t : Authenticator κ ν}
    (h : initializeFuel am cdc n code config = .ok t) : t.Built := by
  induction n generalizing code config t with
  | zero => cases h
  | succ n ih =>
    cases code with
    | leaf initializeLeaf =>
      obtain ⟨l, -, rfl⟩ := map_eq_ok.mp h
      exact .leaf l
    | allOf a =>
      obtain ⟨subs, hsubs, rfl⟩ := map_eq_ok.mp h
      obtain ⟨hlen, hrec⟩ := initializeComposite_ok hsubs
      refine .allOf a hlen (fun t ht => ?_)
      obtain ⟨code', config', hrec⟩ := hrec t ht
      exact ih hrec
    | anyOf a =>
      obtain ⟨subs, hsubs, rfl⟩ := map_eq_ok.mp h
      obtain ⟨hlen, hrec⟩ := initializeComposite_ok hsubs
      refine .anyOf a hlen (fun t ht => ?_)
      obtain ⟨code', config', hrec⟩ := hrec t ht
      exact ih hrec

end AuthenticatorManager

namespace Authenticator
variable {κ ν : Type} {cdc : Codec}

/-- The request of the leaf at a path: its id is the id of the request followed by the path, and only the
signature differs otherwise. -/
theorem asked_request {t : Authenticator κ ν} {request : AuthenticationRequest} {path : List Nat} {l : Leaf κ ν}
    {r : AuthenticationRequest} (h : t.asked cdc request path = some (l, r)) :
    r =
      { request with authenticatorId := path.foldl compositeId request.authenticatorId, signature := r.signature } := by
  induction path generalizing t request with
  | nil =>
    cases t with
    | leaf l' =>
      cases h
      rfl
    | allOf a subs => cases h
    | anyOf a subs => cases h
  | cons i path ih =>
    rw [asked] at h
    split at h
    · cases h
    · split at h
      · exact ih h
      · cases h

end Authenticator

open Authenticator in
/-- A tree that `Initialize` built, over leaves that do not write when they authenticate, authenticates exactly
if its formula holds over its leaves, and confirms exactly if the formula holds from left to right over the
confirmations, with the writes of the logged leaves, in order, and no others. -/
theorem composite_means_formula {κ ν : Type} [DecidableEq κ] (am : AuthenticatorManager κ ν) (cdc : Codec)
    {code : Code κ ν}
    {config : Bytes} {t : Authenticator κ ν} (hinit : am.initializeAuthenticator cdc code config = .ok t)
    (hpure : ∀ l ∈ t.leaves, ∀ r v, (l.authenticate r v).1 = []) (ctx : Cache κ ν) (request : AuthenticationRequest) :
    (∀ path l r, t.asked cdc request path = some (l, r) → r =
      { request with authenticatorId := path.foldl compositeId request.authenticatorId, signature := r.signature }) ∧
    ((t.authenticate cdc ctx request).2.isOk =
      (t.formula []).eval (fun path => authenticates ctx.view (t.asked cdc request path))) ∧
    ((t.confirmExecution cdc ctx request).2.isOk =
      ((t.formula []).evalIn (fun s path => confirms path s (t.asked cdc request path)) (ctx.view, [])).isSome) ∧
    ∀ v log,
      (t.formula []).evalIn (fun s path => confirms path s (t.asked cdc request path)) (ctx.view, []) = some (v, log) →
      (t.confirmExecution cdc ctx request).1 = ctx.puts (logged log) := by
  have hbuilt := AuthenticatorManager.built_of_initialize hinit
  have hconfirm := confirms_of_built cdc (fun s path => confirms path s (t.asked cdc request path))
    hbuilt [] request (fun _ _ => rfl) ctx []
  refine ⟨fun _ _ _ => asked_request, ?_, ?_, ?_⟩
  · exact (answers_of_built hbuilt hpure [] request (fun _ => rfl)).2
  · revert hconfirm
    cases (t.formula []).evalIn (fun s path => confirms path s (t.asked cdc request path)) (ctx.view, []) with
    | none => exact fun h => h
    | some s =>
      rintro ⟨new, -, hout⟩
      rw [hout]
      rfl
  · intro v log hlog
    rw [hlog] at hconfirm
    obtain ⟨new, hs, hout⟩ := hconfirm
    rw [hout, (Prod.mk.inj hs).2, List.nil_append]

/-! A tree of three leaves: the first and one of the other two. -/

def anyOfConfig : Bytes :=
  text "[\x7b\"type\":\"Echo\",\"config\":\"AQ==\"\x7d,\x7b\"type\":\"Echo\",\"config\":\"Ag==\"\x7d]"

def allOfConfig : Bytes :=
  text "[\x7b\"type\":\"Echo\",\"config\":\"AQ==\"\x7d,\x7b\"type\":\"AnyOf\",\"config\":\"" ++
    text "W3sidHlwZSI6IkVjaG8iLCJjb25maWciOiJBUT09In0seyJ0eXBlIjoiRWNobyIsImNvbmZpZyI6IkFnPT0ifV0=\"\x7d]"

/-- The JSON decoders on the texts of the sample. -/
def sampleCodec : Codec where
  unmarshalSignatures signature := if signature = text "[\"AQ==\",\"Ag==\"]" then some [[1], [2]] else none
  unmarshalInitDatas config :=
    if config = allOfConfig then .ok [⟨text "Echo", [1]⟩, ⟨text "AnyOf", anyOfConfig⟩]
    else if config = anyOfConfig then .ok [⟨text "Echo", [1]⟩, ⟨text "Echo", [2]⟩]
    else .error ⟨.other, text "invalid character"⟩
  config_lt config initDatas h d hd := by
    split at h
    · cases h
      subst config
      revert d
      decide +kernel
    · split at h
      · cases h
        subst config
        revert d
        decide +kernel
      · cases h

/-- A leaf that accepts its configuration as signature. It writes its id also when it does not confirm. -/
def echo (config : Bytes) : Leaf Bytes Bytes where
  type := text "Echo"
  authenticate request _ :=
    ([], failIf (request.signature ≠ config) (Err.of .unauthorized (text "signature verification failed")))
  confirmExecution request _ :=
    ([(config, some request.authenticatorId)],
      failIf (request.signature ≠ config) (Err.of .unauthorized (text "signature verification failed")))

def sampleManager : AuthenticatorManager Bytes Bytes := fun type =>
  if type = text "Echo" then some (.leaf (fun config => .ok (echo config)))
  else if type = text "AnyOf" then some (.anyOf .single)
  else none

def sampleTree : Authenticator Bytes Bytes :=
  .allOf .partitioned [.leaf (echo [1]), .anyOf .single [.leaf (echo [1]), .leaf (echo [2])]]

def sampleRequest : AuthenticationRequest where
  authenticatorId := text "7"
  account := [1]
  feePayer := [1]
  feeGranter := []
  fee := []
  msg := ⟨text "/cosmos.bank.v1beta1.MsgSend", []⟩
  msgIndex := 0
  signature := text "[\"AQ==\",\"Ag==\"]"
  signModeDirect := []
  txData := ⟨text "morocco-1", 0, 0, 0, [], []⟩
  signatureData := ⟨[[1]], [[]]⟩
  simulate := false

private theorem sampleTree_initialized :
    sampleManager.initializeAuthenticator sampleCodec (.allOf .partitioned) allOfConfig = .ok sampleTree := by
  have hne : anyOfConfig ≠ allOfConfig := by decide +kernel
  have htype : text "AnyOf" ≠ text "Echo" := by decide +kernel
  simp [AuthenticatorManager.initialize_eq, AuthenticatorManager.initializeComposite,
    AuthenticatorManager.initializeSubs, AuthenticatorManager.initializeSub, sampleCodec, sampleManager, hne, htype,
    Except.mapError, Except.map, bind, Except.bind, failIf, sampleTree]

private theorem sampleTree_pure (l : Leaf Bytes Bytes) (hl : l ∈ sampleTree.leaves) (r : AuthenticationRequest)
    (v : View Bytes Bytes) : (l.authenticate r v).1 = [] := by
  simp only [sampleTree, Authenticator.leaves, Authenticator.leavesOf, List.append_nil, List.cons_append,
    List.nil_append, List.mem_cons, List.not_mem_nil, or_false] at hl
  rcases hl with rfl | rfl | rfl <;> rfl

/-- The second disjunct confirms, and the write of the first is gone. -/
theorem nested_anyOf_confirms :
    (sampleTree.authenticate sampleCodec (.fresh (fun _ => none)) sampleRequest).2.isOk = true ∧
    (sampleTree.confirmExecution sampleCodec (.fresh (fun _ => none)) sampleRequest).1 =
      (Cache.fresh (fun _ => none)).puts [([1], some (text "7.0")), ([2], some (text "7.1.1"))] := by
  obtain ⟨-, hauth, -, hstore⟩ := composite_means_formula sampleManager sampleCodec sampleTree_initialized
    sampleTree_pure (.fresh (fun _ => none)) sampleRequest
  constructor
  · rw [hauth]
    decide +kernel
  · have hlog :
        ((sampleTree.formula []).evalIn
          (fun s path => Authenticator.confirms path s (sampleTree.asked sampleCodec sampleRequest path))
          ((Cache.fresh (fun _ => none)).view, [])).map (fun s => Authenticator.logged s.2) =
        some [([1], some (text "7.0")), ([2], some (text "7.1.1"))] := by
      decide +kernel
    obtain ⟨⟨v, log⟩, heval, hlog⟩ := Option.map_eq_some_iff.mp hlog
    rw [hstore v log heval]
    exact congrArg (Cache.puts _) hlog

end Terpz.SmartAccount
