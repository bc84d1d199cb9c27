/-
# The domain claim validator

`dns_transaction_validator.cpp` line by line: the input rule `validate_domain_input`, the
output rule `validate_domain_output` with its refund loop, and the dispatchers
`validate_input` / `validate_output` that route domain claims to them and everything else to
the generic validator.

An `FC_ASSERT` throws, and the caller's evaluation state is then discarded with the rejected
transaction, so each rule returns `Except String` of the new transaction state. The block
state is the one thing that outlives a rejection: `validate_output` returns it next to the
transaction state, and `Transaction.lean` threads it through a whole transaction.

The results:

* `paysPreviousOwner_eq_true_iff` : whatever the comparison of assets, the refund loop finds
  exactly the signature outputs to the outbid owner that pay at least `amount_back`;
* `OutputRule` : the decision table of the output rule (spec §4.4), one constructor a branch;
* `validateDomainOutput_eq_ok_iff` : the code accepts exactly what the table accepts, and
  leaves the state the table names.
-/
import PtsDns.Basic

namespace PtsDns

/-! ## Assertions and the generic validator -/

/-- `FC_ASSERT(cond, msg)`: fail with `msg` unless `cond` holds. -/
def fcAssert (cond : Bool) (msg : String) : Except String Unit :=
  if cond then pure () else throw msg

theorem fcAssert_bind {α : Type} (c : Bool) (msg : String)
    (f : Unit → Except String α) :
    (fcAssert c msg >>= f) = if c then f () else .error msg := by
  cases c <;> rfl

@[simp] theorem fcAssert_bind_eq_ok {α : Type} {c : Bool} {msg : String}
    {f : Unit → Except String α} {x : α} :
    (fcAssert c msg >>= f) = .ok x ↔ c = true ∧ f () = .ok x := by
  cases c <;> simp [fcAssert_bind]

@[simp] theorem fcAssert_eq_ok {c : Bool} {msg : String} {u : Unit} :
    fcAssert c msg = .ok u ↔ c = true := by
  cases c <;> simp [fcAssert, pure, Except.pure, throw, throwThe, MonadExceptOf.throw]

@[simp] theorem fcAssert_true (msg : String) : fcAssert true msg = pure () := rfl

@[simp] theorem fcAssert_false (msg : String) : fcAssert false msg = .error msg := rfl

@[simp] theorem Except.map_eq_ok {ε α β : Type} {f : α → β} {e : Except ε α} {y : β} :
    (f <$> e) = .ok y ↔ ∃ x, e = .ok x ∧ y = f x := by
  cases e <;> simp [Functor.map, Except.map, eq_comm]

@[simp] theorem Except.bind_ok {ε α β : Type} (a : α) (f : α → Except ε β) :
    ((Except.ok a : Except ε α) >>= f) = f a := rfl

@[simp] theorem Except.bind_error {ε α β : Type} (e : ε) (f : α → Except ε β) :
    ((Except.error e : Except ε α) >>= f) = .error e := rfl

theorem Except.toBool_eq_true {ε α : Type} {e : Except ε α} :
    e.toBool = true ↔ ∃ a, e = .ok a := by
  cases e <;> simp [Except.toBool]

/-- The generic `transaction_validator` that inputs and outputs other than domain claims fall
back to. It is not part of the source given here: it may reject anything, and it updates
only the generic part of the evaluation state, never the domain fields or the name pool. -/
structure GenericValidator where
  validateInput : SignedTransaction → MetaTrxInput → TransactionEvaluationState →
    Except String TransactionEvaluationState
  validateOutput : SignedTransaction → TrxOutput → TransactionEvaluationState →
    Except String TransactionEvaluationState

/-- The generic validator that accepts every input and output and changes nothing. -/
def GenericValidator.acceptAll : GenericValidator :=
  ⟨fun _ _ s => .ok s, fun _ _ s => .ok s⟩

/-! ## The input rule -/

/-- `validate_domain_input`: at most one domain input a transaction, and it must name a
record of the ledger; the input and its amount are kept for the output rule. -/
def validateDomainInput (db : DnsDb) (input : ClaimDomainOutput) (amount : Int)
    (state : DnsTxEvaluationState) : Except String DnsTxEvaluationState := do
  fcAssert (!state.seenDomainInput) "More than one domain claim input in tx: $\x7btx\x7d"
  fcAssert (db.hasDnsRecord input.name) "Input references invalid name"
  pure { state with input := input, inputAmount := amount, seenDomainInput := true }

/-- **Spec of `validate_domain_input`.** -/
theorem validateDomainInput_eq_ok_iff {db : DnsDb} {c : ClaimDomainOutput} {a : Int}
    {s s' : DnsTxEvaluationState} :
    validateDomainInput db c a s = .ok s' ↔
      s.seenDomainInput = false ∧ db.hasDnsRecord c.name = true ∧
      s' = { s with input := c, inputAmount := a, seenDomainInput := true } := by
  unfold validateDomainInput
  simp

/-! ## The refund loop -/

/-- The loop of `validate_domain_output` that looks through `state.trx.outputs` for an output
paying the outbid owner back: a `claim_by_signature` output to `owner` whose asset is at
least `amountBack` by `amountAtLeast`, the comparison of `asset`. It stops at the first one
(`found = true; break`). -/
def paysPreviousOwner (amountAtLeast : Int → Nat → Int → Bool) (owner : PublicKey)
    (amountBack : Int) : List TrxOutput → Bool
  | [] => false
  | otherOut :: outs =>
    let rightClaim := otherOut.isSignatureClaim
    let enough := amountAtLeast otherOut.amount otherOut.unit amountBack
    let toOwner := rightClaim && match otherOut.claim with
      | .bySignature k => k == owner
      | _ => false
    if rightClaim && enough && toOwner then true
    else paysPreviousOwner amountAtLeast owner amountBack outs

section Refund

variable (amountAtLeast : Int → Nat → Int → Bool) (owner : PublicKey) (amountBack : Int)

/-- One output passes the loop's test exactly when it is a signature claim to `owner` whose
asset is at least `amountBack`. -/
theorem paysPreviousOwner_cons (o : TrxOutput) (outs : List TrxOutput) :
    paysPreviousOwner amountAtLeast owner amountBack (o :: outs) =
      (decide (o.claim = .bySignature owner ∧ amountAtLeast o.amount o.unit amountBack) ||
        paysPreviousOwner amountAtLeast owner amountBack outs) := by
  rcases o with ⟨a, u, k | c | f⟩
  · by_cases hk : k = owner <;> simp [paysPreviousOwner, TrxOutput.isSignatureClaim, hk]
  all_goals simp [paysPreviousOwner, TrxOutput.isSignatureClaim]

variable {amountAtLeast owner amountBack}

/-- **The refund loop searches the whole list.** It succeeds exactly when some output is a
signature claim to `owner` whose asset is at least `amountBack`. -/
theorem paysPreviousOwner_eq_true_iff {outs : List TrxOutput} :
    paysPreviousOwner amountAtLeast owner amountBack outs = true ↔
      ∃ o ∈ outs, o.claim = .bySignature owner ∧
        amountAtLeast o.amount o.unit amountBack = true := by
  induction outs with
  | nil => simp [paysPreviousOwner]
  | cons o outs ih => simp [paysPreviousOwner_cons, ih]

/-- The loop reads only the signature claims among the outputs. -/
theorem paysPreviousOwner_filter (outs : List TrxOutput) :
    paysPreviousOwner amountAtLeast owner amountBack outs =
      paysPreviousOwner amountAtLeast owner amountBack
        (outs.filter TrxOutput.isSignatureClaim) := by
  rw [Bool.eq_iff_iff, paysPreviousOwner_eq_true_iff, paysPreviousOwner_eq_true_iff]
  simp only [List.mem_filter]
  constructor
  · rintro ⟨o, ho, hc, ha⟩
    exact ⟨o, ⟨ho, by simp [TrxOutput.isSignatureClaim, hc]⟩, hc, ha⟩
  · rintro ⟨o, ⟨ho, -⟩, hc, ha⟩
    exact ⟨o, ho, hc, ha⟩

end Refund

/-- The refund loop's verdict, its order independence, and its blindness to outputs that
are not signature claims, whatever the comparison of assets: an output of any asset ahead of
the refund cannot change the verdict. -/
theorem refund_search_spec (amountAtLeast : Int → Nat → Int → Bool) (owner : PublicKey)
    (amountBack : Int) (outs : List TrxOutput) :
    (paysPreviousOwner amountAtLeast owner amountBack outs = true ↔
      ∃ o ∈ outs, o.claim = .bySignature owner ∧ amountAtLeast o.amount o.unit amountBack = true) ∧
    (∀ outs', outs'.Perm outs →
      paysPreviousOwner amountAtLeast owner amountBack outs' =
        paysPreviousOwner amountAtLeast owner amountBack outs) ∧
    (∀ outs', outs'.filter TrxOutput.isSignatureClaim = outs.filter TrxOutput.isSignatureClaim →
      paysPreviousOwner amountAtLeast owner amountBack outs' =
        paysPreviousOwner amountAtLeast owner amountBack outs) := by
  refine ⟨paysPreviousOwner_eq_true_iff, fun outs' hp => ?_, fun outs' hf => ?_⟩
  · rw [Bool.eq_iff_iff, paysPreviousOwner_eq_true_iff, paysPreviousOwner_eq_true_iff]
    simp only [hp.mem_iff]
  · rw [paysPreviousOwner_filter outs', hf, ← paysPreviousOwner_filter]

/-! ## The output rule -/

/-- `validate_domain_output`: at most one domain output a transaction; the claim must be well
formed; then, by what `name_is_available` reports, the output is a fresh claim (no domain
input seen), a bid in an open auction, or an update or sale once the auction is over. -/
def validateDomainOutput (db : DnsDb) (trx : SignedTransaction) (output : ClaimDomainOutput)
    (amount : Int) (namePool : List String) (state : DnsTxEvaluationState) :
    Except String DnsTxEvaluationState := do
  fcAssert (!state.seenDomainOutput) "More than one domain claim output in tx: $\x7btx\x7d"
  let state := { state with seenDomainOutput := true }
  fcAssert (db.isValidName output.name) "Invalid name"
  fcAssert (db.isValidValue output.value) "Invalid value"
  fcAssert (db.isValidState output.state) "Invalid state"
  fcAssert (db.isValidAmount amount) "Invalid amount"
  let status := db.nameIsAvailable output.name namePool
  if !state.seenDomainInput then do
    fcAssert (status.newOrExpired && status.available)
      "Name already exists (and is younger than 1 block-year)"
    pure state
  else do
  fcAssert (!status.newOrExpired) "Name new or expired"
  fcAssert (output.name == state.input.name) "Bid tx refers to different input and output names"
  if !db.auctionIsClosed status.prevTxRef then do
    fcAssert status.available "Name not available"
    fcAssert (state.input.state == .possiblyInAuction) "Input not for auction"
    let some amountBack := db.isValidBidPrice state.inputAmount amount
      | throw "Invalid bid amount"
    let state := state.addRequiredFees (amount - amountBack)
    fcAssert (paysPreviousOwner db.amountAtLeast state.input.owner amountBack trx.outputs)
      "Bid did not pay enough to previous owner"
    pure state
  else do
  fcAssert (!db.domainIsExpired status.prevTxRef) "Domain is expired"
  if output.state == .notInAuction then
    fcAssert (amount == state.inputAmount)
      "Output amount should not change when updating record"
  fcAssert (trx.hasSignature output.owner) "Domain tx missing required signature: $\x7btx\x7d"
  pure state

/-- The branch of the output rule a claim output is checked on (spec §4.4, steps 4 and 5). -/
inductive ClaimBranch where
  | freshClaim
  | bid
  | update
  deriving DecidableEq, Repr

/-- The branch `validate_domain_output` takes, from the state it runs in and what
`name_is_available` reports: a fresh claim without a domain input, else a bid while the
auction of the current record is open, else an update or sale. -/
def claimBranch (db : DnsDb) (state : DnsTxEvaluationState) (status : NameStatus) :
    ClaimBranch :=
  if !state.seenDomainInput then .freshClaim
  else if !db.auctionIsClosed status.prevTxRef then .bid else .update

theorem claimBranch_eq_freshClaim {db : DnsDb} {s : DnsTxEvaluationState} {st : NameStatus} :
    claimBranch db s st = .freshClaim ↔ s.seenDomainInput = false := by
  unfold claimBranch
  cases s.seenDomainInput <;> cases db.auctionIsClosed st.prevTxRef <;> simp

theorem claimBranch_eq_update {db : DnsDb} {s : DnsTxEvaluationState} {st : NameStatus} :
    claimBranch db s st = .update ↔
      s.seenDomainInput = true ∧ db.auctionIsClosed st.prevTxRef = true := by
  unfold claimBranch
  cases s.seenDomainInput <;> cases db.auctionIsClosed st.prevTxRef <;> simp

/-- The structural checks of spec §4.4 step 2: name, value, state and amount are valid. -/
def DnsDb.WellFormedClaim (db : DnsDb) (o : ClaimDomainOutput) (amount : Int) : Prop :=
  db.isValidName o.name ∧ db.isValidValue o.value ∧ db.isValidState o.state ∧
    db.isValidAmount amount

instance (db : DnsDb) (o : ClaimDomainOutput) (amount : Int) :
    Decidable (db.WellFormedClaim o amount) :=
  inferInstanceAs (Decidable (_ ∧ _ ∧ _ ∧ _))

/-- The decision table of the output rule (spec §4.4), one constructor a branch.
`OutputRule db trx s o A status br s'` says that a claim output `o` of amount `A`, checked in
state `s` while `name_is_available` reports `status` for its name, is accepted on branch
`br` and leaves the state `s'`: a fresh claim needs a new or expired, available name; a bid
needs an open auction on the spent record, a valid bid price and a refund of `amountBack`
to the outbid owner, and owes the rest of the bid as fees; an update or sale needs an
unexpired record, an unchanged amount for a plain update, and the new owner's signature. -/
@[mk_iff]
inductive OutputRule (db : DnsDb) (trx : SignedTransaction) (s : DnsTxEvaluationState)
    (o : ClaimDomainOutput) (A : Int) (status : NameStatus) :
    ClaimBranch → DnsTxEvaluationState → Prop
  | freshClaim (no_input : s.seenDomainInput = false)
      (new_or_expired : status.newOrExpired = true) (available : status.available = true) :
      OutputRule db trx s o A status .freshClaim { s with seenDomainOutput := true }
  | bid (amountBack : Int) (input_seen : s.seenDomainInput = true)
      (not_new : status.newOrExpired = false) (same_name : o.name = s.input.name)
      (auction_open : db.auctionIsClosed status.prevTxRef = false)
      (available : status.available = true)
      (input_in_auction : s.input.state = .possiblyInAuction)
      (bid_price : db.isValidBidPrice s.inputAmount A = some amountBack)
      (refund : ∃ out ∈ trx.outputs, out.claim = .bySignature s.input.owner ∧
        db.amountAtLeast out.amount out.unit amountBack = true) :
      OutputRule db trx s o A status .bid
        { s with seenDomainOutput := true, requiredFees := s.requiredFees + (A - amountBack) }
  | update (input_seen : s.seenDomainInput = true) (not_new : status.newOrExpired = false)
      (same_name : o.name = s.input.name)
      (auction_closed : db.auctionIsClosed status.prevTxRef = true)
      (not_expired : db.domainIsExpired status.prevTxRef = false)
      (keeps_amount : o.state = .notInAuction → A = s.inputAmount)
      (signed : o.owner ∈ trx.signers) :
      OutputRule db trx s o A status .update { s with seenDomainOutput := true }

/-- **Spec of `validate_domain_output`.** The code accepts a claim output exactly when the
decision table does, and leaves the state the table names. -/
theorem validateDomainOutput_eq_ok_iff {db : DnsDb} {trx : SignedTransaction}
    {o : ClaimDomainOutput} {A : Int} {pool : List String} {s s' : DnsTxEvaluationState} :
    validateDomainOutput db trx o A pool s = .ok s' ↔
      s.seenDomainOutput = false ∧ db.WellFormedClaim o A ∧
        ∃ br, OutputRule db trx s o A (db.nameIsAvailable o.name pool) br s' := by
  unfold validateDomainOutput DnsDb.WellFormedClaim
  simp only [outputRule_iff]
  generalize db.nameIsAvailable o.name pool = st
  cases hin : s.seenDomainInput <;> cases hc : db.auctionIsClosed st.prevTxRef
  · simp [hin, hc, and_assoc]
  · simp [hin, hc, and_assoc]
  · cases hb : db.isValidBidPrice s.inputAmount A <;>
      simp [hin, hc, hb, and_assoc, paysPreviousOwner_eq_true_iff,
        DnsTxEvaluationState.addRequiredFees]
  · by_cases hst : o.state = .notInAuction <;> simp [hin, hc, hst, and_assoc]

/-- The table accepts an output only on the branch the code takes for it. -/
theorem OutputRule.branch_eq {db : DnsDb} {trx : SignedTransaction} {s : DnsTxEvaluationState}
    {o : ClaimDomainOutput} {A : Int} {st : NameStatus} {br : ClaimBranch}
    {s' : DnsTxEvaluationState} (h : OutputRule db trx s o A st br s') :
    br = claimBranch db s st := by
  cases h <;> simp [claimBranch, *]

/-- Fresh claims and bids both need the name to be available. -/
theorem OutputRule.available {db : DnsDb} {trx : SignedTransaction} {s : DnsTxEvaluationState}
    {o : ClaimDomainOutput} {A : Int} {st : NameStatus} {br : ClaimBranch}
    {s' : DnsTxEvaluationState} (h : OutputRule db trx s o A st br s') (hbr : br ≠ .update) :
    st.available = true := by
  cases h <;> first | assumption | exact absurd rfl hbr

/-- Bids and updates are both made after a domain input. -/
theorem OutputRule.input_seen {db : DnsDb} {trx : SignedTransaction}
    {s : DnsTxEvaluationState} {o : ClaimDomainOutput} {A : Int} {st : NameStatus}
    {br : ClaimBranch} {s' : DnsTxEvaluationState} (h : OutputRule db trx s o A st br s')
    (hbr : br ≠ .freshClaim) : s.seenDomainInput = true := by
  cases h <;> first | assumption | exact absurd rfl hbr

/-- Once a domain input is recorded, no output may rename it. -/
theorem OutputRule.name_eq_of_seen {db : DnsDb} {trx : SignedTransaction}
    {s : DnsTxEvaluationState} {o : ClaimDomainOutput} {A : Int} {st : NameStatus}
    {br : ClaimBranch} {s' : DnsTxEvaluationState} (h : OutputRule db trx s o A st br s')
    (hs : s.seenDomainInput = true) : o.name = s.input.name := by
  cases h with
  | freshClaim h₀ => simp [h₀] at hs
  | bid _ _ _ hn => exact hn
  | update _ _ hn => exact hn

/-- The table reads `prev_tx_ref` and `new_or_expired` as they are, and availability only as
a requirement: a report that keeps the first two and is available whenever the given one is
accepts the same outputs on the same branches. -/
theorem OutputRule.mono_status {db : DnsDb} {trx : SignedTransaction}
    {s : DnsTxEvaluationState} {o : ClaimDomainOutput} {A : Int} {st st' : NameStatus}
    {br : ClaimBranch} {s' : DnsTxEvaluationState} (h : OutputRule db trx s o A st br s')
    (hnew : st'.newOrExpired = st.newOrExpired) (href : st'.prevTxRef = st.prevTxRef)
    (havail : st.available = true → st'.available = true) :
    OutputRule db trx s o A st' br s' := by
  cases h with
  | freshClaim h₀ h₁ h₂ => exact .freshClaim h₀ (hnew.trans h₁) (havail h₂)
  | bid ab h₀ h₁ h₂ h₃ h₄ h₅ h₆ h₇ =>
    exact .bid ab h₀ (hnew.trans h₁) h₂ (href ▸ h₃) (havail h₄) h₅ h₆ h₇
  | update h₀ h₁ h₂ h₃ h₄ h₅ h₆ =>
    exact .update h₀ (hnew.trans h₁) h₂ (href ▸ h₃) (href ▸ h₄) h₅ h₆

/-- Every branch marks the domain output as seen and keeps the domain input. -/
theorem OutputRule.fields {db : DnsDb} {trx : SignedTransaction} {s : DnsTxEvaluationState}
    {o : ClaimDomainOutput} {A : Int} {st : NameStatus} {br : ClaimBranch}
    {s' : DnsTxEvaluationState} (h : OutputRule db trx s o A st br s') :
    s'.seenDomainOutput = true ∧ s'.seenDomainInput = s.seenDomainInput ∧ s'.input = s.input ∧
      s'.inputAmount = s.inputAmount := by
  cases h <;> simp

/-! ## Dispatch -/

/-- `validate_input`: a domain claim goes to `validate_domain_input`, anything else to the
generic validator. -/
def validateInput (db : DnsDb) (g : GenericValidator) (trx : SignedTransaction)
    (inp : MetaTrxInput) (state : DnsTxEvaluationState) : Except String DnsTxEvaluationState :=
  match inp.output.domainClaim? with
  | some dnsInput => validateDomainInput db dnsInput inp.output.amount state
  | none => do
    let base ← g.validateInput trx inp state.toTransactionEvaluationState
    pure { state with toTransactionEvaluationState := base }

/-- `validate_output`: a domain claim goes to `validate_domain_output` and, once accepted, its
name is pushed onto the block's name pool; anything else goes to the generic validator. -/
def validateOutput (db : DnsDb) (g : GenericValidator) (trx : SignedTransaction)
    (out : TrxOutput) (state : DnsTxEvaluationState) (blockState : DnsBlockEvaluationState) :
    Except String (DnsTxEvaluationState × DnsBlockEvaluationState) :=
  match out.domainClaim? with
  | some dnsOutput => do
    let state ← validateDomainOutput db trx dnsOutput out.amount blockState.namePool state
    pure (state, ⟨blockState.namePool ++ [dnsOutput.name]⟩)
  | none => do
    let base ← g.validateOutput trx out state.toTransactionEvaluationState
    pure ({ state with toTransactionEvaluationState := base }, blockState)

/-- A domain input goes to `validate_domain_input`. -/
theorem validateInput_of_domainClaim {db : DnsDb} {g : GenericValidator}
    {trx : SignedTransaction} {inp : MetaTrxInput} {c : ClaimDomainOutput}
    (h : inp.output.domainClaim? = some c) (s : DnsTxEvaluationState) :
    validateInput db g trx inp s = validateDomainInput db c inp.output.amount s := by
  simp [validateInput, h]

/-- Any other input goes to the generic validator, which leaves the domain fields alone. -/
theorem validateInput_eq_ok_of_none {db : DnsDb} {g : GenericValidator}
    {trx : SignedTransaction} {inp : MetaTrxInput} (h : inp.output.domainClaim? = none)
    {s s' : DnsTxEvaluationState} :
    validateInput db g trx inp s = .ok s' ↔ ∃ base,
      g.validateInput trx inp s.toTransactionEvaluationState = .ok base ∧
        s' = { s with toTransactionEvaluationState := base } := by
  simp [validateInput, h]

/-- A domain output goes to `validate_domain_output`, and its name is pushed on success. -/
theorem validateOutput_eq_ok_of_domainClaim {db : DnsDb} {g : GenericValidator}
    {trx : SignedTransaction} {out : TrxOutput} {c : ClaimDomainOutput}
    (h : out.domainClaim? = some c) {s s' : DnsTxEvaluationState}
    {b b' : DnsBlockEvaluationState} :
    validateOutput db g trx out s b = .ok (s', b') ↔
      validateDomainOutput db trx c out.amount b.namePool s = .ok s' ∧
        b' = ⟨b.namePool ++ [c.name]⟩ := by
  simp only [validateOutput, h, bind_pure_comp, Except.map_eq_ok, Prod.mk.injEq]
  constructor
  · rintro ⟨x, hx, rfl, rfl⟩
    exact ⟨hx, rfl⟩
  · rintro ⟨hx, rfl⟩
    exact ⟨s', hx, rfl, rfl⟩

/-- Any other output goes to the generic validator, which leaves the domain fields and the
block state alone. -/
theorem validateOutput_eq_ok_of_none {db : DnsDb} {g : GenericValidator}
    {trx : SignedTransaction} {out : TrxOutput} (h : out.domainClaim? = none)
    {s s' : DnsTxEvaluationState} {b b' : DnsBlockEvaluationState} :
    validateOutput db g trx out s b = .ok (s', b') ↔ ∃ base,
      g.validateOutput trx out s.toTransactionEvaluationState = .ok base ∧
        s' = { s with toTransactionEvaluationState := base } ∧ b' = b := by
  simp only [validateOutput, h, bind_pure_comp, Except.map_eq_ok, Prod.mk.injEq]

/-- **The decision table of the output rule.** `validate_output` accepts a domain output
exactly when the table accepts it on some branch; the table fixes the new transaction
state (the flag set, fees grown by `A - amountBack` on a bid and unchanged otherwise), and the
name pool gains the output's name. -/
theorem validateOutput_decision_table {db : DnsDb} {g : GenericValidator}
    {trx : SignedTransaction} {o : ClaimDomainOutput} {A : Int} {u : Nat}
    {s s' : DnsTxEvaluationState} {b b' : DnsBlockEvaluationState} :
    validateOutput db g trx ⟨A, u, .domain o⟩ s b = .ok (s', b') ↔
      (s.seenDomainOutput = false ∧ db.WellFormedClaim o A ∧
        ∃ br, OutputRule db trx s o A (db.nameIsAvailable o.name b.namePool) br s') ∧
      b' = ⟨b.namePool ++ [o.name]⟩ := by
  rw [validateOutput_eq_ok_of_domainClaim (TrxOutput.domainClaim?_mk_domain A u o),
    validateDomainOutput_eq_ok_iff]

end PtsDns