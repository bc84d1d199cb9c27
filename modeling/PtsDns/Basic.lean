/-
# The domain-name registry: data model

The values the DNS transaction validator (`dns_transaction_validator.cpp`) reads and
writes: claim outputs and the other kinds of transaction output, the inputs spending them,
the per-transaction and per-block evaluation states, and the ledger queries the validator
makes.

Following the repository's design notes, the runtime type tests of the source
(`is_dns_output`, the `dynamic_cast`s to the DNS evaluation states) become a closed variant
of output kinds and evaluation states that carry their DNS fields directly, so the
`FC_ASSERT`s on those casts hold by typing.

The ledger (`dns_db`), the `dns_util` helpers and the comparison of `asset` are not part of
the source given here: `DnsDb` bundles them as parameters, and `Ledger.lean` builds the
spec's own instance.
-/
import Mathlib.Data.List.Basic

namespace PtsDns

/-! ## Keys, claim states and claim outputs -/

/-- A public key; the validator only compares keys. -/
structure PublicKey where
  key : Nat
  deriving DecidableEq, Repr, Inhabited

/-- The `state` byte of a `claim_domain_output`: one of the two recognised auction states,
or any other byte a serialised output may carry (`is_valid_state` is there to reject those). -/
inductive ClaimState where
  | possiblyInAuction
  | notInAuction
  | unrecognised (byte : Nat)
  deriving DecidableEq, Repr, Inhabited

/-- `claim_domain_output`: the claim data of a domain-name output. -/
structure ClaimDomainOutput where
  name : String
  value : String
  state : ClaimState
  owner : PublicKey
  deriving DecidableEq, Repr, Inhabited

/-- The claim condition of a `trx_output`, as a closed variant over the claim functions the
validator tells apart: `claim_by_signature` with its owner, the domain claim, and any other
claim function, which only the generic validator reads. -/
inductive ClaimCondition where
  | bySignature (owner : PublicKey)
  | domain (claim : ClaimDomainOutput)
  | other (claimFunc : Nat)
  deriving DecidableEq, Repr, Inhabited

/-- `trx_output`: an amount of some asset, and its claim condition. `asset` is declared
outside the source: the model keeps its amount and its unit. The one place the validator
compares an output's asset with an amount of another output is the refund loop, through
`DnsDb.amountAtLeast`; elsewhere it reads the amount of the domain output and of the domain
input it spends. -/
structure TrxOutput where
  amount : Int
  unit : Nat
  claim : ClaimCondition
  deriving DecidableEq, Repr, Inhabited

/-- `is_dns_output` and `to_dns_output` in one: the claim of a domain output. -/
def TrxOutput.domainClaim? (out : TrxOutput) : Option ClaimDomainOutput :=
  match out.claim with
  | .domain c => some c
  | _ => none

@[simp] theorem TrxOutput.domainClaim?_mk_domain (a : Int) (u : Nat) (c : ClaimDomainOutput) :
    (TrxOutput.mk a u (.domain c)).domainClaim? = some c := rfl

/-- `claim_func == claim_by_signature`: the output is a plain signature claim. -/
def TrxOutput.isSignatureClaim (out : TrxOutput) : Bool :=
  match out.claim with
  | .bySignature _ => true
  | _ => false

/-- `output_reference`: the output a transaction input spends. -/
structure OutputReference where
  trxHash : Nat
  outputIdx : Nat
  deriving DecidableEq, Repr, Inhabited

/-- `meta_trx_input`: a transaction input together with the output it spends. -/
structure MetaTrxInput where
  outputRef : OutputReference
  output : TrxOutput
  deriving DecidableEq, Repr

/-- `signed_transaction` as the validator reads it through `state.trx`: its outputs, and
the keys whose signatures it carries. -/
structure SignedTransaction where
  outputs : List TrxOutput
  signers : List PublicKey
  deriving DecidableEq, Repr

/-- `transaction_evaluation_state::has_signature`. -/
def SignedTransaction.hasSignature (trx : SignedTransaction) (k : PublicKey) : Bool :=
  decide (k ∈ trx.signers)

@[simp] theorem SignedTransaction.hasSignature_eq_true {trx : SignedTransaction}
    {k : PublicKey} : trx.hasSignature k = true ↔ k ∈ trx.signers := by
  simp [SignedTransaction.hasSignature]

/-! ## Evaluation states -/

/-- The part of `transaction_evaluation_state` the domain validator uses: the required-fee
accumulator. The generic validator's other bookkeeping is read by none of the code here. -/
structure TransactionEvaluationState where
  requiredFees : Int
  deriving DecidableEq, Repr

/-- `dns_tx_evaluation_state`: the generic state with the domain fields, which record the
one domain input a transaction may spend and whether a domain output has been seen. -/
structure DnsTxEvaluationState extends TransactionEvaluationState where
  seenDomainInput : Bool
  seenDomainOutput : Bool
  input : ClaimDomainOutput
  inputAmount : Int
  deriving DecidableEq, Repr

/-- `add_required_fees`, inherited from `transaction_evaluation_state`. -/
def DnsTxEvaluationState.addRequiredFees (s : DnsTxEvaluationState) (a : Int) :
    DnsTxEvaluationState :=
  { s with requiredFees := s.requiredFees + a }

/-- Modelled from the spec: the state `dns_tx_evaluation_state state(tx)` starts in (its
constructor is declared in a header not given here): no fees yet and neither flag set. -/
def DnsTxEvaluationState.init : DnsTxEvaluationState where
  requiredFees := 0
  seenDomainInput := false
  seenDomainOutput := false
  input := default
  inputAmount := 0

/-- `dns_block_evaluation_state`: the names claimed by the outputs validated so far in the
block, in order. -/
structure DnsBlockEvaluationState where
  namePool : List String
  deriving DecidableEq, Repr

/-- `create_block_state`: a fresh block state with an empty name pool. -/
def createBlockState : DnsBlockEvaluationState := ⟨[]⟩

/-! ## The ledger queries -/

/-- What `name_is_available` reports about a name: whether it may be claimed or bid on,
whether it has no record or only an expired one (`new_or_expired`), and the output holding
its current record (`prev_tx_ref`). -/
structure NameStatus where
  available : Bool
  newOrExpired : Bool
  prevTxRef : OutputReference
  deriving DecidableEq, Repr

/-- The ledger `_dns_db` as the validator reads it, with the `dns_util` checks it calls and
the comparison of `asset`, all declared outside the source. `isValidBidPrice prev bid` is
`is_valid_bid_price(prev, bid, amount_back)`: `some amountBack` when it returns true.
`amountAtLeast amount unit amountBack` is `other_out.amount >= amount_back` for an output's
asset of that amount and unit. -/
structure DnsDb where
  hasDnsRecord : String → Bool
  nameIsAvailable : String → List String → NameStatus
  auctionIsClosed : OutputReference → Bool
  domainIsExpired : OutputReference → Bool
  isValidName : String → Bool
  isValidValue : String → Bool
  isValidState : ClaimState → Bool
  isValidAmount : Int → Bool
  isValidBidPrice : Int → Int → Option Int
  amountAtLeast : Int → Nat → Int → Bool

/-- The oracle contract of spec §4.1: a name in the block's pool is never available. -/
def DnsDb.PoolUnavailable (db : DnsDb) : Prop :=
  ∀ n pool, n ∈ pool → (db.nameIsAvailable n pool).available = false

/-- The oracle contract that `name_is_available` reads the pool only through whether the
queried name is in it. -/
def DnsDb.PoolLocal (db : DnsDb) : Prop :=
  ∀ n p q, (n ∈ p ↔ n ∈ q) → db.nameIsAvailable n p = db.nameIsAvailable n q

/-- The oracle contract of spec §4.1 that only availability reads the pool, and a larger pool
can only take it away: `new_or_expired` and `prev_tx_ref` come from the ledger alone. -/
def DnsDb.PoolAntitone (db : DnsDb) : Prop :=
  ∀ n p q, p ⊆ q →
    (db.nameIsAvailable n p).newOrExpired = (db.nameIsAvailable n q).newOrExpired ∧
      (db.nameIsAvailable n p).prevTxRef = (db.nameIsAvailable n q).prevTxRef ∧
      ((db.nameIsAvailable n q).available = true → (db.nameIsAvailable n p).available = true)

end PtsDns
