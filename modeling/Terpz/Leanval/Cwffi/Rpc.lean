import Terpz.Lib.Base64
import Terpz.Leanval.Cwffi.Heights

/-! The chain over HTTP: what a node answers for a height, and what a node that catches up reads from the answers. -/
namespace Terpz.Leanval.Cwffi
open Lib

section Serve
variable {σ : Type}

/-- The block at a height with the height it is served under; without one, the last certificate. -/
def Driver.payloadAt (d : Driver σ) (h : Int64) : Bytes × Int64 × Bytes :=
  let h := if h ≤ 0 then d.next - 1 else h
  if h < 1 then ([], 0, d.lastCertRaw)
  else
    match d.committed h with
    | some b => (b.payload, h, b.cert)
    | none => ([], h, d.lastCertRaw)

def Node.height (app : EngineApp σ) (n : Node σ) : Int64 := (app.lastBlockHeight n.app).getD (n.driver.next - 1)

/-- Bytes as a JSON string holds them; the empty text for none. -/
def field64 (b : Bytes) : Text := if b.length > 0 then Base64.encode b else []

def upper (t : Text) : Text := t.map (fun c => if 97 ≤ c ∧ c ≤ 122 then c - 32 else c)

structure ServedSigner where
  index : UInt32
  pubkey : Text
  signature : Text

structure ServedSignature where
  validatorAddress : Text
  signature : Text

/-- The `result` of an answer, by the path that was asked. -/
inductive Response where
  | payload (height payload certificate : Text)
  | certificate (height : Text) (epoch view : UInt64) (certificate : Text) (signers : List ServedSigner)
  | block (height : Text) (txs : List Text) (signatures : List ServedSignature) (payload certificate : Text)

def payloadResult (n : Node σ) (height : Int64) : Response :=
  let (payload, h, cert) := n.driver.payloadAt height
  .payload (signedDecimal h.toInt) (field64 payload) (field64 cert)

def certificateResult (n : Node σ) (height : Int64) : Response :=
  let (_, h, cert) := n.driver.payloadAt height
  let cert := if cert.length = 0 then n.driver.lastCertRaw else cert
  let parsed := (parseLeanCert cert).1
  .certificate (signedDecimal h.toInt) parsed.epoch parsed.view (field64 cert) (parsed.signers.map (fun s =>
    ⟨s.index, ((keyAt n.driver.lastPks s.index).map Base64.encode).getD [], Base64.encode s.signature⟩))

def blockResult (app : EngineApp σ) (n : Node σ) (height : Int64) : Response :=
  let (payload, h, cert) := n.driver.payloadAt height
  let (h, cert) := if h = 0 then (n.height app, n.driver.lastCertRaw) else (h, cert)
  let parsed := (parseLeanCert cert).1
  .block (signedDecimal h.toInt) (if payload.length > 0 then [Base64.encode payload] else [])
    ((parsed.signers.filter (fun s => !isZeroSig s.signature)).map (fun s =>
      ⟨((keyAt n.driver.lastPks s.index).map (fun pk => upper (hex pk))).getD [], Base64.encode s.signature⟩))
    (field64 payload) (field64 cert)

inductive Url where
  | certificate | payload | block
  deriving DecidableEq

def serve (app : EngineApp σ) (n : Node σ) (height : Int64) : Url → Response
  | .certificate => certificateResult n height
  | .payload => payloadResult n height
  | .block => blockResult app n height

end Serve

section Body

def quoted (t : Text) : Text := 34 :: (t ++ [34])

/-- A JSON object; the members of a Go map come in the order of their names. -/
def object (members : List (String × Text)) : Text :=
  123 :: ([44].intercalate (members.map (fun m => quoted (text m.1) ++ 58 :: m.2)) ++ [125])

def array (items : List Text) : Text := 91 :: ([44].intercalate items ++ [93])

def Response.json : Response → Text
  | .payload height b64 c64 =>
    object [("certificate", quoted c64), ("height", quoted height), ("payload", quoted b64)]
  | .certificate height epoch view c64 signers =>
    object [("certificate", quoted c64), ("epoch", decimal epoch.toNat), ("height", quoted height),
      ("signers", array (signers.map (fun s => object [("index", decimal s.index.toNat), ("pubkey", quoted s.pubkey),
        ("signature", quoted s.signature)]))),
      ("view", decimal view.toNat)]
  | .block height txs signatures b64 c64 =>
    object [
      ("block", object [
        ("data", object [("txs", array (txs.map quoted))]),
        ("header", object [("height", quoted height)]),
        ("last_commit", object [("signatures", array (signatures.map (fun s => object [("block_id_flag", decimal 2),
          ("signature", quoted s.signature), ("validator_address", quoted s.validatorAddress)])))])]),
      ("certificate", quoted c64), ("payload", quoted b64)]

def Response.body (r : Response) : Text :=
  object [("jsonrpc", quoted (text "2.0")), ("id", text "-1"), ("result", r.json)]

/-- The bytes of an answer that are read. -/
def bodyLimit : Nat := 4194304

/-- An answer as the reader sees it: an object that is cut off is not JSON. -/
def Response.read (r : Response) : Option Response := if r.body.length ≤ bodyLimit then some r else none

end Body

section Read

/-- A numeral as it is scanned. -/
def scanHeight : Text → Int
  | 45 :: t => -(ofDecimal t : Int)
  | t => ofDecimal t

def Response.heightText : Response → Text
  | .payload height _ _ => height
  | .certificate height _ _ _ _ => height
  | .block height _ _ _ _ => height

/-- The payload, or else the first transaction of the block. -/
def Response.payloadText : Response → Text
  | .payload _ b64 _ => b64
  | .certificate _ _ _ _ _ => []
  | .block _ txs _ b64 _ => if b64 = [] then txs.headD [] else b64

def Response.certificateText : Response → Text
  | .payload _ _ c64 => c64
  | .certificate _ _ _ c64 _ => c64
  | .block _ _ _ _ c64 => c64

/-- Payload and certificate, each empty when it cannot be had. -/
def decodeCatchupPayload (r : Response) (want : Int64) : Bytes × Bytes :=
  let h := scanHeight r.heightText
  if r.heightText ≠ [] ∧ h ≠ 0 ∧ h ≠ want.toInt then ([], [])
  else
    let payload := match Base64.decode r.payloadText with
      | none => []
      | some p => if (decodePayload p).isOk then p else []
    (payload, (Base64.decode r.certificateText).getD [])

/-- A fetch under way: the paths still to be asked, and what came so far. -/
structure Fetch where
  height : Int64
  left : List Url
  payload : Bytes
  cert : Bytes

def Fetch.start (height : Int64) : Fetch := ⟨height, [.certificate, .payload, .block], [], []⟩

def Fetch.complete (f : Fetch) : Prop := f.left = [] ∨ (f.payload ≠ [] ∧ f.cert ≠ [])

instance (f : Fetch) : Decidable f.complete := inferInstanceAs (Decidable (_ ∨ _))

/-- The answer to the next path, if one came; a field that came replaces what there was. -/
def Fetch.answer (f : Fetch) (r : Option Response) : Fetch :=
  match r with
  | none => { f with left := f.left.tail }
  | some r =>
    let (p, c) := decodeCatchupPayload r f.height
    { f with
      left := f.left.tail
      payload := if p.length > 0 then p else f.payload
      cert := if c.length > 0 then c else f.cert }

end Read

end Terpz.Leanval.Cwffi
