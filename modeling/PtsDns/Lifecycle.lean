/-
# The life of a name

Read against the ledger, the three branches of the output rule are three phases of a name.
With no live record, a name can only be claimed afresh; while its live record is in auction,
only a bid can replace that record; once the auction is over and until the record expires,
only an update or a sale. `Ledger.namePhase` (in `Auction.lean`) is that abstraction of a
name's record, and this module proves that the code keeps to it, from one output up to whole
runs of blocks:

* `Ledger.outputRule_branch_eq_namePhase` : an output accepted against the ledger was
  accepted on the branch its name's phase selects;
* `Ledger.blockClaims_branch_eq_namePhase` : so is every output a block accepts, against the
  ledger the block starts from;
* `Ledger.resolved_spend_replaces_record` : with its domain input resolved honestly, a
  transaction's output accepted on the bid or update branch replaces its name's current
  record, which the transaction spends: a bid beats that record's amount and pays its owner
  back, an update that ends the auction keeps the amount;
* `Ledger.settled_update_accepted` : the owner of a settled name can always update it, in any
  block state, whatever other transactions pushed to the pool;
* `Ledger.inAuction_bid_accepted` : while a name's auction is open, anyone can outbid its
  record in a block whose pool does not hold the name yet;
* `Ledger.record?_applyBlock` : a block leaves a name's record as it was, or rewrites it by a
  transaction the block accepted, with an output accepted on that branch;
* `Ledger.refsUnique_applyBlocks` : no two records share an output reference along a run
  whose transaction hashes are fresh;
* `Ledger.applyBlocks_lifecycle` : hence, at every block of such a run, a name's record
  changes only through the branch its phase selects;
* `Ledger.applyBlocks_price` : and, at every block whose domain inputs resolve honestly, the
  transaction that rewrites a name's record spends the old one; a name's price only rises
  while it is in auction, the writer paying the outbid owner back, and stays put under an
  update that keeps it out of auction.

The output rule reads the auction state of a name's record through the record's output
reference (`auction_is_closed(prev_tx_ref)`), so the phase results assume that no two records
share one, and the run result carries that along the run.
-/
import PtsDns.Chain
import PtsDns.Auction

namespace PtsDns

/-! ## The phase selects the branch -/

section Phase

variable {P : DnsPolicy} {l : Ledger}

/-- **The phase selects the branch.** Against a ledger whose records have distinct output
references, an output accepted by the decision table was accepted on the branch its name's
phase selects. -/
theorem Ledger.outputRule_branch_eq_namePhase (hrefs : l.RefsUnique)
    {trx : SignedTransaction} {s : DnsTxEvaluationState} {o : ClaimDomainOutput} {A : Int}
    {pool : List String} {br : ClaimBranch} {s' : DnsTxEvaluationState}
    (h : OutputRule (l.dnsDb P) trx s o A (l.nameIsAvailable P o.name pool) br s') :
    br = (l.namePhase P o.name).branch := by
  unfold Ledger.namePhase
  cases hrec : l.record? o.name with
  | none =>
    cases h <;> simp_all [Ledger.nameIsAvailable, NamePhase.branch]
  | some r =>
    have hat := Ledger.recordAt?_of_mem hrefs (Ledger.mem_of_record? hrec).1
    rw [Ledger.nameIsAvailable_of_record P hrec] at h
    cases h <;> simp_all [NamePhase.branch]

/-- **Every output a block accepts keeps to its name's phase.** Against a ledger whose
records have distinct output references, every output in a block's claim log was accepted on
the branch its name's phase at the block's start selects: a fresh claim for a name with no
live record, a bid while its live record is in auction, an update or sale once the auction
is over. -/
theorem Ledger.blockClaims_branch_eq_namePhase (g : GenericValidator) (hrefs : l.RefsUnique)
    (ts : List TxRun) (b : DnsBlockEvaluationState) (e : ClaimEvent)
    (he : e ∈ blockClaims (l.dnsDb P) g ts b) :
    e.branch (l.dnsDb P) = (l.namePhase P e.output.name).branch := by
  obtain ⟨trx, br, s', hr⟩ := blockClaims_outputRule he
  rw [ClaimEvent.branch, ← hr.branch_eq]
  exact Ledger.outputRule_branch_eq_namePhase hrefs hr

end Phase

/-- Key 2's bid on `"alice"`, spending key 1's record output, as a block of one. -/
def aliceBidBlock : List TxRun :=
  [.ofTrx aliceBidTrx [⟨⟨1, 0⟩, ⟨100, 0, .domain ⟨"alice", "", .possiblyInAuction, ⟨1⟩⟩⟩⟩]]

/-- Against the ledger of key 1's open auction, the bid is logged on the bid branch. -/
theorem aliceBidBlock_branch_eq_namePhase :
    ClaimEvent.branch (aliceAuctionLedger.dnsDb .sample)
        ⟨aliceBidState, [], ⟨"alice", "", .possiblyInAuction, ⟨2⟩⟩, 200⟩ =
      (aliceAuctionLedger.namePhase .sample "alice").branch :=
  Ledger.blockClaims_branch_eq_namePhase .acceptAll (by decide) aliceBidBlock createBlockState
    ⟨aliceBidState, [], ⟨"alice", "", .possiblyInAuction, ⟨2⟩⟩, 200⟩ (List.mem_cons_self _ _)

/-! ## Spending the current record -/

/-- Modelled from the spec: `on_evaluate` resolves each input to the output it spends. Against
the ledger, a domain input is resolved honestly when it spends the output holding a current
record and carries that record's claim and amount. -/
def Ledger.resolves (l : Ledger) (inp : MetaTrxInput) : Bool :=
  match inp.output.domainClaim? with
  | none => true
  | some c =>
    (l.recordAt? inp.outputRef).any fun r => r.claim == c && r.amount == inp.output.amount

/-- An honestly resolved domain input spends a record of the ledger, with its claim and
amount. -/
theorem Ledger.record_of_resolves {l : Ledger} {inp : MetaTrxInput} (h : l.resolves inp = true)
    {c : ClaimDomainOutput} (hc : inp.output.domainClaim? = some c) :
    ∃ r ∈ l.records, r.outputRef = inp.outputRef ∧ r.claim = c ∧ r.amount = inp.output.amount := by
  simp only [Ledger.resolves, hc] at h
  cases hr : l.recordAt? inp.outputRef with
  | none => simp [hr] at h
  | some r =>
    simp only [hr, Option.any_some, Bool.and_eq_true, beq_iff_eq] at h
    exact ⟨r, List.mem_of_find?_eq_some hr, by simpa using List.find?_some hr, h⟩

section Spending

variable {P : DnsPolicy} {l : Ledger} {g : GenericValidator} {trx : SignedTransaction}
  {inputs : List MetaTrxInput}

/-- On the spec's ledger, a bid is made after a domain input, beats the amount it outbids
by the increment, and pays the outbid owner at least that amount back. -/
theorem Ledger.outputRule_bid_terms {s s' : DnsTxEvaluationState} {o : ClaimDomainOutput}
    {A : Int} {st : NameStatus} (h : OutputRule (l.dnsDb P) trx s o A st .bid s') :
    s.seenDomainInput = true ∧ s.inputAmount + P.minBidIncrement ≤ A ∧
      ∃ out ∈ trx.outputs, out.claim = .bySignature s.input.owner ∧ s.inputAmount ≤ out.amount := by
  cases h with
  | bid back hseen _ _ _ _ _ hprice hrefund =>
    obtain ⟨hinc, rfl⟩ := (Ledger.isValidBidPrice_eq_some P l).1 hprice
    obtain ⟨out, hout, hclaim, hpaid⟩ := hrefund
    exact ⟨hseen, hinc, out, hout, hclaim,
      (P.le_refund _ _).trans ((Ledger.dnsDb_amountAtLeast P l).1 hpaid).2⟩

/-- With honestly resolved inputs, an output logged after a domain input was checked with the
claim and amount of its name's current record, and the transaction spends that record. -/
theorem Ledger.acceptedClaims_input_record (hres : ∀ inp ∈ inputs, l.resolves inp = true)
    {outs : List TrxOutput} {b : DnsBlockEvaluationState} {e : ClaimEvent}
    (he : e ∈ acceptedClaims (l.dnsDb P) g trx (inputs.map .input ++ outs.map .output) .init b)
    (hseen : e.state.seenDomainInput = true) :
    ∃ r, l.record? e.output.name = some r ∧ (∃ inp ∈ inputs, inp.outputRef = r.outputRef) ∧
      e.state.input = r.claim ∧ e.state.inputAmount = r.amount := by
  rw [acceptedClaims_append, acceptedClaims_map_input, List.nil_append] at he
  split at he
  case h_2 => simp at he
  rename_i s₁ b₁ hin
  obtain ⟨h₁, h₂, h₃⟩ := acceptedClaims_map_output_state he
  rcases runDispatches_map_input_cases (congrArg Prod.fst hin) with ⟨h₀, -⟩ | ⟨inp, hinp, hc, ha⟩
  · simp [h₁, h₀, DnsTxEvaluationState.init] at hseen
  · obtain ⟨r, hr, href, hclaim, hamount⟩ := Ledger.record_of_resolves (hres inp hinp) hc
    obtain ⟨-, -, _, _, hrule⟩ := acceptedClaims_outputRule he
    refine ⟨r, ?_, ⟨inp, hinp, href.symm⟩, h₂.trans hclaim.symm, h₃.trans (ha.trans hamount.symm)⟩
    rw [hrule.name_eq_of_seen hseen, h₂, ← hclaim]
    exact Ledger.record?_of_mem hr

/-- **Spending the current record.** With every domain input resolved honestly against the
ledger, an output a transaction gets accepted on the bid or the update branch replaces its
name's current record, whose output the transaction spends. A bid beats that record's amount
by the increment and pays the record's owner at least that amount back; an update that ends
the auction keeps the amount. -/
theorem Ledger.resolved_spend_replaces_record (hres : ∀ inp ∈ inputs, l.resolves inp = true)
    (b : DnsBlockEvaluationState) (e : ClaimEvent)
    (he : e ∈ acceptedClaims (l.dnsDb P) g trx
      (inputs.map .input ++ trx.outputs.map .output) .init b)
    (hspend : e.branch (l.dnsDb P) ≠ .freshClaim) :
    ∃ r, l.record? e.output.name = some r ∧ (∃ inp ∈ inputs, inp.outputRef = r.outputRef) ∧
      (e.branch (l.dnsDb P) = .bid → r.amount + P.minBidIncrement ≤ e.amount ∧
        ∃ out ∈ trx.outputs, out.claim = .bySignature r.claim.owner ∧ r.amount ≤ out.amount) ∧
      (e.branch (l.dnsDb P) = .update → e.output.state = .notInAuction → e.amount = r.amount) := by
  have hseen : e.state.seenDomainInput = true := by
    simpa [ClaimEvent.branch, claimBranch_eq_freshClaim] using hspend
  obtain ⟨r, hrec, hspent, hinput, hamount⟩ := Ledger.acceptedClaims_input_record hres he hseen
  obtain ⟨-, -, br, _, hrule⟩ := acceptedClaims_outputRule he
  have hbr : e.branch (l.dnsDb P) = br := hrule.branch_eq.symm
  refine ⟨r, hrec, hspent, fun hbid => ?_, fun hupd hst => ?_⟩
  · obtain rfl : br = .bid := hbr.symm.trans hbid
    simpa only [hinput, hamount] using (Ledger.outputRule_bid_terms hrule).2
  · obtain rfl : br = .update := hbr.symm.trans hupd
    cases hrule with
    | update _ _ _ _ _ hkeep => exact (hkeep hst).trans hamount

end Spending

/-! ## Progress: the owner can always update, anyone can outbid -/

section Progress

variable {P : DnsPolicy} {l : Ledger}

/-- Under the generic validator that accepts everything, outputs that are not domain outputs
go through and change nothing. -/
theorem runDispatches_acceptAll_of_none {db : DnsDb} {trx : SignedTransaction}
    {outs : List TrxOutput} (h : ∀ out ∈ outs, out.domainClaim? = none)
    (s : DnsTxEvaluationState) (b : DnsBlockEvaluationState) :
    runDispatches db .acceptAll trx (outs.map .output) s b = (.ok s, b) := by
  induction outs with
  | nil => rfl
  | cons out outs ih =>
    have hd : dispatch db .acceptAll trx (.output out) s b = .ok (s, b) :=
      (validateOutput_eq_ok_of_none (h out (List.mem_cons_self _ _))).2 ⟨_, rfl, rfl, rfl⟩
    simp only [List.map_cons, runDispatches, hd]
    exact ih fun out hout => h out (List.mem_cons_of_mem _ hout)

/-- A transaction that spends a record's output, with one domain output followed by outputs
that are not domain outputs, is accepted under the generic validator that accepts everything
exactly as its domain output is, in the state that spending the record leaves. -/
theorem Ledger.evaluate_spend_record {r : DnsRecord} (hmem : r ∈ l.records)
    {trx : SignedTransaction} {o : ClaimDomainOutput} {A : Int} {u u' : Nat}
    {rest : List TrxOutput} (houts : trx.outputs = ⟨A, u, .domain o⟩ :: rest)
    (hrest : ∀ out ∈ rest, out.domainClaim? = none) (b : DnsBlockEvaluationState)
    {s' : DnsTxEvaluationState}
    (hv : validateDomainOutput (l.dnsDb P) trx o A b.namePool { DnsTxEvaluationState.init with
      input := r.claim, inputAmount := r.amount, seenDomainInput := true } = .ok s') :
    (evaluate (l.dnsDb P) .acceptAll trx [⟨r.outputRef, ⟨r.amount, u', .domain r.claim⟩⟩] b).1 =
      .ok s' := by
  have hin : dispatch (l.dnsDb P) .acceptAll trx
      (.input ⟨r.outputRef, ⟨r.amount, u', .domain r.claim⟩⟩) .init b =
      .ok ({ DnsTxEvaluationState.init with
        input := r.claim, inputAmount := r.amount, seenDomainInput := true }, b) := by
    rw [dispatch, validateInput_of_domainClaim (TrxOutput.domainClaim?_mk_domain _ _ _),
      (validateDomainInput_eq_ok_iff.2
        ⟨rfl, by simp [Ledger.dnsDb, Ledger.record?_of_mem hmem], rfl⟩)]
    rfl
  have hout := (validateOutput_eq_ok_of_domainClaim (g := .acceptAll)
    (TrxOutput.domainClaim?_mk_domain A u o)).2 ⟨hv, rfl⟩
  rw [evaluate, houts]
  exact runDispatches_cons_fst_eq_ok.2 ⟨_, _, hin, runDispatches_cons_fst_eq_ok.2
    ⟨_, _, hout, congrArg Prod.fst (runDispatches_acceptAll_of_none hrest _ _)⟩⟩

/-- **The owner can always update.** Against a ledger whose records have distinct output
references, a transaction signed by a settled name's owner that spends the name's record
output into one domain output of the same name, owner and amount, out of auction, with any
valid value, is accepted in every block state: whatever names the block's earlier
transactions pushed to the pool, rejected ones included, they cannot lock the owner out. -/
theorem Ledger.settled_update_accepted (hrefs : l.RefsUnique) {r : DnsRecord}
    (hmem : r ∈ l.records) (hphase : l.namePhase P r.claim.name = .settled)
    (hname : (l.dnsDb P).isValidName r.claim.name = true)
    (hamount : (l.dnsDb P).isValidAmount r.amount = true) {value : String}
    (hvalue : (l.dnsDb P).isValidValue value = true) {signers : List PublicKey}
    (hsigned : r.claim.owner ∈ signers) (b : DnsBlockEvaluationState) {u u' : Nat} :
    (evaluate (l.dnsDb P) .acceptAll
      ⟨[⟨r.amount, u, .domain ⟨r.claim.name, value, .notInAuction, r.claim.owner⟩⟩], signers⟩
      [⟨r.outputRef, ⟨r.amount, u', .domain r.claim⟩⟩] b).1.toBool = true := by
  have hrec := Ledger.record?_of_mem hmem
  have hat := Ledger.recordAt?_of_mem hrefs hmem
  have hlive : l.expired P r = false ∧ l.auctionClosed P r = true := by
    unfold Ledger.namePhase at hphase
    rw [hrec] at hphase
    cases he : l.expired P r <;> cases hc : l.auctionClosed P r <;> simp [he, hc] at hphase ⊢
  -- against any pool, the output passes the decision table on the update branch
  have hrule : OutputRule (l.dnsDb P)
      ⟨[⟨r.amount, u, .domain ⟨r.claim.name, value, .notInAuction, r.claim.owner⟩⟩], signers⟩
      { DnsTxEvaluationState.init with
        input := r.claim, inputAmount := r.amount, seenDomainInput := true }
      ⟨r.claim.name, value, .notInAuction, r.claim.owner⟩ r.amount
      (l.nameIsAvailable P r.claim.name b.namePool) .update { DnsTxEvaluationState.init with
        input := r.claim, inputAmount := r.amount, seenDomainInput := true,
        seenDomainOutput := true } := by
    rw [Ledger.nameIsAvailable_of_record P hrec]
    exact .update rfl hlive.1 rfl (by simp [hat, hlive.2]) (by simp [hat, hlive.1])
      (fun _ => rfl) hsigned
  have hwf : (l.dnsDb P).WellFormedClaim ⟨r.claim.name, value, .notInAuction, r.claim.owner⟩
      r.amount := by
    exact ⟨hname, hvalue, rfl, hamount⟩
  rw [Ledger.evaluate_spend_record hmem rfl (by simp) b
    (validateDomainOutput_eq_ok_iff.2 ⟨rfl, hwf, _, hrule⟩)]
  rfl

/-- **Anyone can outbid an open auction.** Against a ledger whose records have distinct
output references, take a name in auction whose record is open to bids. In any block state
whose pool does not hold the name yet, a transaction that spends the record's output into a
bid of at least the record's amount plus the increment, in auction, with any valid value,
owner and signers, and pays the outbid owner the refund, is accepted. -/
theorem Ledger.inAuction_bid_accepted (hrefs : l.RefsUnique) {r : DnsRecord}
    (hmem : r ∈ l.records) (hphase : l.namePhase P r.claim.name = .inAuction)
    (hopen : r.claim.state = .possiblyInAuction)
    (hname : (l.dnsDb P).isValidName r.claim.name = true)
    (hamount : (l.dnsDb P).isValidAmount r.amount = true) {value : String}
    (hvalue : (l.dnsDb P).isValidValue value = true) {A : Int}
    (hbid : r.amount + P.minBidIncrement ≤ A) (owner : PublicKey) (signers : List PublicKey)
    (b : DnsBlockEvaluationState) (hpool : r.claim.name ∉ b.namePool) {u u' : Nat} :
    (evaluate (l.dnsDb P) .acceptAll
      ⟨[⟨A, u, .domain ⟨r.claim.name, value, .possiblyInAuction, owner⟩⟩,
        ⟨P.refund r.amount A, P.unit, .bySignature r.claim.owner⟩], signers⟩
      [⟨r.outputRef, ⟨r.amount, u', .domain r.claim⟩⟩] b).1.toBool = true := by
  have hrec := Ledger.record?_of_mem hmem
  have hat := Ledger.recordAt?_of_mem hrefs hmem
  have hlive : l.expired P r = false ∧ l.auctionClosed P r = false := by
    unfold Ledger.namePhase at hphase
    rw [hrec] at hphase
    cases he : l.expired P r <;> cases hc : l.auctionClosed P r <;> simp [he, hc] at hphase ⊢
  -- outside the pool, the bid passes the decision table on the bid branch
  have hrule : OutputRule (l.dnsDb P)
      ⟨[⟨A, u, .domain ⟨r.claim.name, value, .possiblyInAuction, owner⟩⟩,
        ⟨P.refund r.amount A, P.unit, .bySignature r.claim.owner⟩], signers⟩
      { DnsTxEvaluationState.init with
        input := r.claim, inputAmount := r.amount, seenDomainInput := true }
      ⟨r.claim.name, value, .possiblyInAuction, owner⟩ A
      (l.nameIsAvailable P r.claim.name b.namePool) .bid { DnsTxEvaluationState.init with
        input := r.claim, inputAmount := r.amount, seenDomainInput := true,
        seenDomainOutput := true, requiredFees := 0 + (A - P.refund r.amount A) } := by
    rw [Ledger.nameIsAvailable_of_record P hrec]
    exact .bid _ rfl hlive.1 rfl (by simp [hat, hlive.2]) (by simp [hpool, hlive.1, hlive.2])
      hopen ((Ledger.isValidBidPrice_eq_some P l).2 ⟨hbid, rfl⟩)
      ⟨_, List.mem_cons_of_mem _ (List.mem_cons_self _ _), rfl,
        (Ledger.dnsDb_amountAtLeast P l).2 ⟨rfl, le_refl _⟩⟩
  -- the bid is above the record's amount, which clears the floor
  have hA : (l.dnsDb P).isValidAmount A = true := by
    have := P.minBidIncrement_pos
    simp only [Ledger.dnsDb, decide_eq_true_eq] at hamount ⊢
    omega
  have hwf : (l.dnsDb P).WellFormedClaim ⟨r.claim.name, value, .possiblyInAuction, owner⟩ A :=
    ⟨hname, hvalue, rfl, hA⟩
  rw [Ledger.evaluate_spend_record hmem rfl (by simp [TrxOutput.domainClaim?]) b
    (validateDomainOutput_eq_ok_iff.2 ⟨rfl, hwf, _, hrule⟩)]
  rfl

end Progress

/-- Key 1 updates the value of its settled `"alice"` in a block whose pool already holds the
name. -/
theorem aliceLedger_owner_update_accepted :
    (evaluate (aliceLedger.dnsDb .sample) .acceptAll
      ⟨[⟨100, 0, .domain ⟨"alice", "www", .notInAuction, ⟨1⟩⟩⟩], [⟨1⟩]⟩
      [⟨⟨1, 0⟩, ⟨100, 0, .domain ⟨"alice", "", .notInAuction, ⟨1⟩⟩⟩⟩]
      ⟨["alice"]⟩).1.toBool = true :=
  Ledger.settled_update_accepted (r := ⟨⟨"alice", "", .notInAuction, ⟨1⟩⟩, 100, 1, ⟨1, 0⟩⟩)
    (by decide) (List.mem_singleton_self _) (by decide) (by decide) (by decide) (by decide)
    (List.mem_singleton_self _) ⟨["alice"]⟩

/-- While key 1's auction of `"alice"` is open, key 2 outbids it with 200, unsigned, paying
key 1 back its 100. -/
theorem aliceAuction_bid_accepted :
    (evaluate (aliceAuctionLedger.dnsDb .sample) .acceptAll
      ⟨[⟨200, 0, .domain ⟨"alice", "", .possiblyInAuction, ⟨2⟩⟩⟩, ⟨100, 0, .bySignature ⟨1⟩⟩], []⟩
      [⟨⟨1, 0⟩, ⟨100, 0, .domain ⟨"alice", "", .possiblyInAuction, ⟨1⟩⟩⟩⟩]
      createBlockState).1.toBool = true :=
  Ledger.inAuction_bid_accepted (r := aliceAuctionRecord) (by decide) (List.mem_singleton_self _)
    (by decide) rfl (by decide) (by decide) (by decide) (by decide) ⟨2⟩ [] createBlockState
    (by decide)

/-- The output holding key 1's record in auction, spent as a domain input. -/
def aliceAuctionInput : MetaTrxInput :=
  ⟨⟨1, 0⟩, ⟨100, 0, .domain ⟨"alice", "", .possiblyInAuction, ⟨1⟩⟩⟩⟩

/-- Key 2's bid on `"alice"`, as the output rule logs it. -/
def aliceBidEvent : ClaimEvent :=
  ⟨aliceBidState, [], ⟨"alice", "", .possiblyInAuction, ⟨2⟩⟩, 200⟩

/-- Key 2's bid spends key 1's record of 100, beats it and pays key 1 back. -/
theorem aliceBid_replaces_record :
    ∃ r, aliceAuctionLedger.record? "alice" = some r ∧
      (∃ inp ∈ [aliceAuctionInput], inp.outputRef = r.outputRef) ∧
      (aliceBidEvent.branch (aliceAuctionLedger.dnsDb .sample) = .bid →
        r.amount + DnsPolicy.sample.minBidIncrement ≤ 200 ∧
        ∃ out ∈ aliceBidTrx.outputs, out.claim = .bySignature r.claim.owner ∧
          r.amount ≤ out.amount) ∧
      (aliceBidEvent.branch (aliceAuctionLedger.dnsDb .sample) = .update →
        aliceBidEvent.output.state = .notInAuction → (200 : Int) = r.amount) :=
  Ledger.resolved_spend_replaces_record (g := .acceptAll) (by decide) createBlockState
    aliceBidEvent (List.mem_cons_self _ _) (by decide)

/-! ## One block -/

/-- How a block writes a record: at the height the block starts from, by a transaction of
the block that the block accepted, with an output that passed the decision table on branch
`br` against the ledger the block starts from. -/
structure Ledger.WrittenIn (P : DnsPolicy) (g : GenericValidator) (l : Ledger)
    (blk : List ChainTransaction) (br : ClaimBranch) (r : DnsRecord) : Prop where
  height_eq : r.lastUpdateHeight = l.height
  writer : ∃ before t after, blk = before ++ t :: after ∧ l.WrittenBy P g before t br r

section Block

variable {P : DnsPolicy} {g : GenericValidator}

/-- **Step: a block keeps to the phase.** Against a ledger whose records have distinct
output references, the record a name has after a block is the one it had before, or was
written by the block with an output accepted on the branch the name's phase selects. -/
theorem Ledger.record?_applyBlock {l : Ledger} (hrefs : l.RefsUnique)
    {blk : List ChainTransaction} {n : String} {r' : DnsRecord}
    (hr' : (l.applyBlock P g blk).record? n = some r') :
    l.record? n = some r' ∨ l.WrittenIn P g blk (l.namePhase P n).branch r' := by
  obtain ⟨hmem, rfl⟩ := Ledger.mem_of_record? hr'
  rcases Ledger.mem_applyBlock hmem with hold | ⟨hh, before, t, after, hblk, br, hw⟩
  · exact .inl (Ledger.record?_of_mem hold)
  · obtain ⟨e, he, hout, hamt, s', hr⟩ := hw.logged
    have hbr := Ledger.outputRule_branch_eq_namePhase hrefs hr
    rw [hout] at hbr
    exact .inr ⟨hh, before, t, after, hblk, hbr ▸ hw⟩

/-- **Step: prices keep to the phase.** Against a ledger whose records have distinct output
references, with every domain input of a block resolved honestly, a name's record survives
the block or is rewritten at the ledger's height by a transaction the block accepted, on the
branch the name's phase selects. Unless the name was free, that transaction spends the old
record. While the name is in auction, it beats the record's amount by the increment and pays
the record's owner back; once the auction is over, it keeps the amount when it stays out of
auction. -/
theorem Ledger.applyBlock_price {l : Ledger} (hrefs : l.RefsUnique)
    {blk : List ChainTransaction} (hres : ∀ t ∈ blk, ∀ inp ∈ t.inputs, l.resolves inp = true)
    {n : String} {r r' : DnsRecord} (hr : l.record? n = some r)
    (hr' : (l.applyBlock P g blk).record? n = some r') :
    r' = r ∨ r'.lastUpdateHeight = l.height ∧ ∃ before t after, blk = before ++ t :: after ∧
      l.WrittenBy P g before t (l.namePhase P n).branch r' ∧
      (l.namePhase P n ≠ .free → ∃ inp ∈ t.inputs, inp.outputRef = r.outputRef) ∧
      (l.namePhase P n = .inAuction → r.amount + P.minBidIncrement ≤ r'.amount ∧
        ∃ out ∈ t.trx.outputs, out.claim = .bySignature r.claim.owner ∧ r.amount ≤ out.amount) ∧
      (l.namePhase P n = .settled → r'.claim.state = .notInAuction → r'.amount = r.amount) := by
  rcases Ledger.record?_applyBlock hrefs hr' with hold | ⟨hh, before, t, after, hblk, hw⟩
  · exact .inl (Option.some.inj (hold.symm.trans hr))
  obtain ⟨e, he, hout, hamt, _, hrule⟩ := hw.logged
  have ht : t ∈ blk := hblk ▸ List.mem_append_right _ (List.mem_cons_self _ _)
  have hname : e.output.name = n := hout ▸ (Ledger.mem_of_record? hr').2
  -- once the domain input is seen, the writer was checked against `r` and spends it
  have hspent (hseen : e.state.seenDomainInput = true) :
      (∃ inp ∈ t.inputs, inp.outputRef = r.outputRef) ∧ e.state.input = r.claim ∧
        e.state.inputAmount = r.amount := by
    obtain ⟨r₀, hr₀, hinp, hinput, hamount⟩ :=
      Ledger.acceptedClaims_input_record (hres t ht) he hseen
    obtain rfl : r₀ = r := Option.some.inj (hr₀.symm.trans (hname ▸ hr))
    exact ⟨hinp, hinput, hamount⟩
  refine .inr ⟨hh, before, t, after, hblk, hw, fun hph => ?_, fun hph => ?_, fun hph hst => ?_⟩
  · refine (hspent (hrule.input_seen fun hfresh => hph ?_)).1
    revert hfresh
    cases l.namePhase P n <;> decide
  · rw [hph] at hrule
    obtain ⟨hseen, hinc, out, hmem, hclaim, hpaid⟩ := Ledger.outputRule_bid_terms hrule
    obtain ⟨-, hinput, hamount⟩ := hspent hseen
    rw [← hamt, ← hamount]
    exact ⟨hinc, out, hmem, hinput ▸ hclaim, hpaid⟩
  · rw [hph] at hrule
    cases hrule with
    | update hseen _ _ _ _ hkeep =>
      rw [← hamt, ← (hspent hseen).2.2]
      exact hkeep (hout ▸ hst)

end Block

/-! ## Output references along a run -/

/-- A commit under a fresh reference keeps references unique, and adds only that one. -/
theorem Ledger.refsUnique_commitClaim {l : Ledger} (hrefs : l.RefsUnique)
    {ref : OutputReference} (hfresh : ref ∉ l.refs) (c : ClaimDomainOutput) (amount : Int) :
    (l.commitClaim ref c amount).RefsUnique ∧
      (l.commitClaim ref c amount).refs ⊆ ref :: l.refs := by
  have hsub : ((l.records.filter (·.claim.name != c.name)).map (·.outputRef)).Sublist l.refs :=
    (List.filter_sublist _).map _
  exact ⟨List.nodup_cons.2 ⟨fun h => hfresh (hsub.subset h), hrefs.sublist hsub⟩,
    List.cons_subset_cons _ hsub.subset⟩

/-- Commits under distinct fresh references keep references unique, and add only those. -/
theorem Ledger.refsUnique_commitClaims {cs : List (OutputReference × ClaimDomainOutput × Int)}
    {l : Ledger} (hrefs : l.RefsUnique) (hnd : (cs.map (·.1)).Nodup)
    (hfresh : ∀ x ∈ cs, x.1 ∉ l.refs) :
    (l.commitClaims cs).RefsUnique ∧ (l.commitClaims cs).refs ⊆ cs.map (·.1) ++ l.refs := by
  induction cs generalizing l with
  | nil => exact ⟨hrefs, fun _ h => List.mem_append_right _ h⟩
  | cons x cs ih =>
    obtain ⟨ref, c, amount⟩ := x
    rw [List.map_cons, List.nodup_cons] at hnd
    obtain ⟨h₁, hsub₁⟩ :=
      Ledger.refsUnique_commitClaim hrefs (hfresh _ (List.mem_cons_self _ _)) c amount
    obtain ⟨h₂, hsub₂⟩ := @ih (l.commitClaim ref c amount) h₁ hnd.2 fun y hy hmem => by
      rcases List.mem_cons.1 (hsub₁ hmem) with he | hl
      · exact hnd.1 (he ▸ List.mem_map_of_mem _ hy)
      · exact hfresh y (List.mem_cons_of_mem _ hy) hl
    refine ⟨h₂, fun z hz => ?_⟩
    rcases List.mem_append.1 (hsub₂ hz) with hz | hz
    · exact List.mem_append_left _ (List.mem_cons_of_mem _ hz)
    · rcases List.mem_cons.1 (hsub₁ hz) with rfl | hz
      · exact List.mem_append_left _ (List.mem_cons_self _ _)
      · exact List.mem_append_right _ hz

/-- The claims of outputs enumerated from index `k`: under distinct references, each carrying
the hash and an index from `k` on. -/
theorem claims_enumFrom_refs (h : Nat) (outs : List TrxOutput) (k : Nat) :
    (((outs.enumFrom k).filterMap fun p =>
        p.2.domainClaim?.map fun c => ((⟨h, p.1⟩ : OutputReference), c, p.2.amount)).map
        (·.1)).Nodup ∧
      ∀ x ∈ (outs.enumFrom k).filterMap (fun p =>
        p.2.domainClaim?.map fun c => ((⟨h, p.1⟩ : OutputReference), c, p.2.amount)),
        x.1.trxHash = h ∧ k ≤ x.1.outputIdx := by
  induction outs generalizing k with
  | nil => simp
  | cons out outs ih =>
    obtain ⟨hnd, hidx⟩ := ih (k + 1)
    simp only [List.enumFrom_cons, List.filterMap_cons]
    cases out.domainClaim? with
    | none => exact ⟨hnd, fun x hx => ⟨(hidx x hx).1, by have := (hidx x hx).2; omega⟩⟩
    | some c =>
      refine ⟨List.nodup_cons.2 ⟨fun hm => ?_, hnd⟩, fun x hx => ?_⟩
      · obtain ⟨x, hx, hxe⟩ := List.mem_map.1 hm
        have := (hidx x hx).2
        rw [hxe] at this
        exact absurd this (by simp)
      · rcases List.mem_cons.1 hx with rfl | hx
        · exact ⟨rfl, le_refl _⟩
        · exact ⟨(hidx x hx).1, by have := (hidx x hx).2; omega⟩

/-- A transaction commits its claims under distinct references carrying its hash. -/
theorem ChainTransaction.claims_refs (t : ChainTransaction) :
    (t.claims.map (·.1)).Nodup ∧ ∀ x ∈ t.claims, x.1.trxHash = t.hash := by
  have heq : t.claims = (t.trx.outputs.enumFrom 0).filterMap fun p =>
      p.2.domainClaim?.map fun c => ((⟨t.hash, p.1⟩ : OutputReference), c, p.2.amount) := by
    unfold ChainTransaction.claims
    congr 1
  obtain ⟨hnd, hidx⟩ := claims_enumFrom_refs t.hash t.trx.outputs 0
  rw [heq]
  exact ⟨hnd, fun x hx => (hidx x hx).1⟩

/-- Committing transactions with distinct hashes that no reference carries yet keeps
references unique; every new reference carries the hash of one of them. -/
theorem Ledger.refsUnique_foldl_commitTransaction {ts : List ChainTransaction} {l : Ledger}
    (hrefs : l.RefsUnique) (hnd : (ts.map (·.hash)).Nodup)
    (hfresh : ∀ t ∈ ts, ∀ ref ∈ l.refs, ref.trxHash ≠ t.hash) :
    (ts.foldl Ledger.commitTransaction l).RefsUnique ∧
      ∀ ref ∈ (ts.foldl Ledger.commitTransaction l).refs,
        ref ∈ l.refs ∨ ∃ t ∈ ts, ref.trxHash = t.hash := by
  induction ts generalizing l with
  | nil => exact ⟨hrefs, fun _ h => .inl h⟩
  | cons t ts ih =>
    rw [List.map_cons, List.nodup_cons] at hnd
    obtain ⟨hcnd, hchash⟩ := t.claims_refs
    obtain ⟨h₁, hsub₁⟩ := @Ledger.refsUnique_commitClaims t.claims l hrefs hcnd
      fun x hx hl => hfresh t (List.mem_cons_self _ _) _ hl (hchash x hx)
    have hnew : ∀ ref ∈ (l.commitTransaction t).refs, ref ∈ l.refs ∨ ref.trxHash = t.hash :=
      fun ref href => (List.mem_append.1 (hsub₁ href)).symm.imp_right fun hc => by
        obtain ⟨x, hx, rfl⟩ := List.mem_map.1 hc
        exact hchash x hx
    obtain ⟨h₂, hsub₂⟩ := @ih (l.commitTransaction t) h₁ hnd.2 fun t' ht' ref href => by
      rcases hnew ref href with hl | hh
      · exact hfresh t' (List.mem_cons_of_mem _ ht') ref hl
      · exact hh ▸ fun he => hnd.1 (he ▸ List.mem_map_of_mem _ ht')
    refine ⟨h₂, fun ref href => ?_⟩
    rcases hsub₂ ref href with hl | ⟨t', ht', he⟩
    · exact (hnew ref hl).imp_right fun hh => ⟨t, List.mem_cons_self _ _, hh⟩
    · exact .inr ⟨t', List.mem_cons_of_mem _ ht', he⟩

section Run

variable {P : DnsPolicy} {g : GenericValidator}

/-- A block whose transactions have distinct hashes that no reference carries yet keeps
references unique; every new reference carries the hash of one of its transactions. -/
theorem Ledger.refsUnique_applyBlock {l : Ledger} {blk : List ChainTransaction}
    (hrefs : l.RefsUnique) (hnd : (blk.map (·.hash)).Nodup)
    (hfresh : ∀ t ∈ blk, ∀ ref ∈ l.refs, ref.trxHash ≠ t.hash) :
    (l.applyBlock P g blk).RefsUnique ∧
      ∀ ref ∈ (l.applyBlock P g blk).refs, ref ∈ l.refs ∨ ∃ t ∈ blk, ref.trxHash = t.hash := by
  have hsub := acceptedTransactions_sublist (l.dnsDb P) g blk createBlockState
  obtain ⟨h, hrefs'⟩ := Ledger.refsUnique_foldl_commitTransaction hrefs
    (hnd.sublist (hsub.map _)) fun t ht => hfresh t (hsub.subset ht)
  exact ⟨h, fun ref href => (hrefs' ref href).imp_right fun ⟨t, ht, he⟩ =>
    ⟨t, hsub.subset ht, he⟩⟩

/-- **Output references stay unique along a run.** Over any run of blocks whose transactions
have distinct hashes that no reference of the starting ledger carries, no two records ever
share an output reference. -/
theorem Ledger.refsUnique_applyBlocks {l : Ledger} {blocks : List (List ChainTransaction)}
    (hrefs : l.RefsUnique) (hnd : (blocks.flatten.map (·.hash)).Nodup)
    (hfresh : ∀ t ∈ blocks.flatten, ∀ ref ∈ l.refs, ref.trxHash ≠ t.hash) :
    (l.applyBlocks P g blocks).RefsUnique := by
  induction blocks generalizing l with
  | nil => exact hrefs
  | cons blk blocks ih =>
    rw [List.flatten_cons, List.map_append, List.nodup_append] at hnd
    obtain ⟨h₁, hsub₁⟩ := Ledger.refsUnique_applyBlock (P := P) (g := g) hrefs hnd.1
      fun t ht => hfresh t (List.mem_append_left _ ht)
    refine ih h₁ hnd.2.1 fun t ht ref href => ?_
    rcases hsub₁ ref href with hl | ⟨t₀, ht₀, he⟩
    · exact hfresh t (List.mem_append_right _ ht) ref hl
    · rw [he]
      exact fun heq => hnd.2.2 (List.mem_map_of_mem _ ht₀)
        (by rw [heq]; exact List.mem_map_of_mem _ ht)

/-- Output references are unique at the start of every block of such a run. -/
theorem Ledger.refsUnique_applyBlocks_of_split {l : Ledger} {blocks : List (List ChainTransaction)}
    (hrefs : l.RefsUnique) (hnd : (blocks.flatten.map (·.hash)).Nodup)
    (hfresh : ∀ t ∈ blocks.flatten, ∀ ref ∈ l.refs, ref.trxHash ≠ t.hash)
    {pre post : List (List ChainTransaction)} {blk : List ChainTransaction}
    (hsplit : blocks = pre ++ blk :: post) : (l.applyBlocks P g pre).RefsUnique := by
  subst hsplit
  rw [List.flatten_append, List.map_append] at hnd
  rw [List.flatten_append] at hfresh
  exact Ledger.refsUnique_applyBlocks hrefs hnd.of_append_left
    fun t ht => hfresh t (List.mem_append_left _ ht)

/-- **The life of a name over a run.** Over any run of blocks from a ledger whose records
have distinct output references, with transactions of distinct hashes that no reference of
the starting ledger carries, at every block of the run the record a name has after the block
is the one it had before, or was written by the block with an output accepted on the branch
the name's phase at the block's start selects. -/
theorem Ledger.applyBlocks_lifecycle (l : Ledger) {blocks : List (List ChainTransaction)}
    (hrefs : l.RefsUnique) (hnd : (blocks.flatten.map (·.hash)).Nodup)
    (hfresh : ∀ t ∈ blocks.flatten, ∀ ref ∈ l.refs, ref.trxHash ≠ t.hash)
    {pre post : List (List ChainTransaction)} {blk : List ChainTransaction}
    (hsplit : blocks = pre ++ blk :: post) {n : String} {r' : DnsRecord}
    (hr' : ((l.applyBlocks P g pre).applyBlock P g blk).record? n = some r') :
    (l.applyBlocks P g pre).record? n = some r' ∨
      (l.applyBlocks P g pre).WrittenIn P g blk ((l.applyBlocks P g pre).namePhase P n).branch
        r' := by
  exact Ledger.record?_applyBlock (Ledger.refsUnique_applyBlocks_of_split hrefs hnd hfresh hsplit)
    hr'

/-- **Prices over a run.** Over any run of blocks from a ledger whose records have distinct
output references, with transactions of distinct hashes that no reference of the starting
ledger carries, take any block whose domain inputs resolve honestly against the ledger it
starts from. A name's record survives the block or is rewritten at the block's height by a
transaction the block accepted, on the branch the name's phase selects; unless the name was
free, that transaction spends the old record. While the name is in auction, the writer beats
the old amount by the increment and pays the old owner at least that amount back; once the
auction is over, it keeps the amount when it stays out of auction. -/
theorem Ledger.applyBlocks_price (l : Ledger) {blocks : List (List ChainTransaction)}
    (hrefs : l.RefsUnique) (hnd : (blocks.flatten.map (·.hash)).Nodup)
    (hfresh : ∀ t ∈ blocks.flatten, ∀ ref ∈ l.refs, ref.trxHash ≠ t.hash)
    {pre post : List (List ChainTransaction)} {blk : List ChainTransaction}
    (hsplit : blocks = pre ++ blk :: post)
    (hres : ∀ t ∈ blk, ∀ inp ∈ t.inputs, (l.applyBlocks P g pre).resolves inp = true)
    {n : String} {r r' : DnsRecord} (hr : (l.applyBlocks P g pre).record? n = some r)
    (hr' : ((l.applyBlocks P g pre).applyBlock P g blk).record? n = some r') :
    r' = r ∨ r'.lastUpdateHeight = (l.applyBlocks P g pre).height ∧
      ∃ before t after, blk = before ++ t :: after ∧
        (l.applyBlocks P g pre).WrittenBy P g before t
          ((l.applyBlocks P g pre).namePhase P n).branch r' ∧
        ((l.applyBlocks P g pre).namePhase P n ≠ .free →
          ∃ inp ∈ t.inputs, inp.outputRef = r.outputRef) ∧
        ((l.applyBlocks P g pre).namePhase P n = .inAuction →
          r.amount + P.minBidIncrement ≤ r'.amount ∧
          ∃ out ∈ t.trx.outputs, out.claim = .bySignature r.claim.owner ∧ r.amount ≤ out.amount) ∧
        ((l.applyBlocks P g pre).namePhase P n = .settled →
          r'.claim.state = .notInAuction → r'.amount = r.amount) :=
  Ledger.applyBlock_price (Ledger.refsUnique_applyBlocks_of_split hrefs hnd hfresh hsplit) hres
    hr hr'

end Run

/-- Key 2's fresh claim in the last block of the stale-record run: the name's phase is free,
and the record is written on the fresh-claim branch. -/
theorem stale_record_chain_lifecycle :
    ((Ledger.empty 1).applyBlocks .sample .acceptAll
        [[firstAliceClaim], [], [], [], [], []]).record? "alice" = some secondAliceRecord ∨
      ((Ledger.empty 1).applyBlocks .sample .acceptAll
          [[firstAliceClaim], [], [], [], [], []]).WrittenIn .sample .acceptAll
        [secondAliceClaim]
        (((Ledger.empty 1).applyBlocks .sample .acceptAll
          [[firstAliceClaim], [], [], [], [], []]).namePhase .sample "alice").branch
        secondAliceRecord :=
  Ledger.applyBlocks_lifecycle _ (by decide) (by decide) (by decide)
    (show staleRecordChain = [[firstAliceClaim], [], [], [], [], []] ++ [[secondAliceClaim]]
      from rfl)
    (by decide)

/-- Key 2's bid on `"alice"` (hash 4), spending key 1's record output. -/
def aliceBidChainTx : ChainTransaction :=
  ⟨4, [aliceAuctionInput], aliceBidTrx⟩

/-- Key 1 claims `"alice"` at height 1, and key 2 outbids it at height 2. -/
def aliceBidChain : List (List ChainTransaction) :=
  [[firstAliceClaim], [aliceBidChainTx]]

/-- The record key 2's bid writes. -/
def aliceBidRecord : DnsRecord :=
  ⟨⟨"alice", "", .possiblyInAuction, ⟨2⟩⟩, 200, 2, ⟨4, 0⟩⟩

/-- At height 2 the name is in auction; key 2's bid, accepted as the block's only
transaction, replaces key 1's record of 100 with one of 200, spends key 1's record and pays
key 1 back. -/
theorem aliceBid_chain_price :
    aliceBidRecord = aliceAuctionRecord ∨
      aliceBidRecord.lastUpdateHeight =
        ((Ledger.empty 1).applyBlocks .sample .acceptAll [[firstAliceClaim]]).height ∧
      ∃ before t after, [aliceBidChainTx] = before ++ t :: after ∧
        ((Ledger.empty 1).applyBlocks .sample .acceptAll [[firstAliceClaim]]).WrittenBy .sample
          .acceptAll before t
          (((Ledger.empty 1).applyBlocks .sample .acceptAll [[firstAliceClaim]]).namePhase
            .sample "alice").branch aliceBidRecord ∧
        (((Ledger.empty 1).applyBlocks .sample .acceptAll [[firstAliceClaim]]).namePhase .sample
            "alice" ≠ .free → ∃ inp ∈ t.inputs, inp.outputRef = aliceAuctionRecord.outputRef) ∧
        (((Ledger.empty 1).applyBlocks .sample .acceptAll [[firstAliceClaim]]).namePhase .sample
            "alice" = .inAuction →
          aliceAuctionRecord.amount + DnsPolicy.sample.minBidIncrement ≤ aliceBidRecord.amount ∧
          ∃ out ∈ t.trx.outputs, out.claim = .bySignature aliceAuctionRecord.claim.owner ∧
            aliceAuctionRecord.amount ≤ out.amount) ∧
        (((Ledger.empty 1).applyBlocks .sample .acceptAll [[firstAliceClaim]]).namePhase .sample
            "alice" = .settled →
          aliceBidRecord.claim.state = .notInAuction →
            aliceBidRecord.amount = aliceAuctionRecord.amount) :=
  Ledger.applyBlocks_price _ (by decide) (by decide) (by decide)
    (show aliceBidChain = [[firstAliceClaim]] ++ [[aliceBidChainTx]] from rfl)
    (by decide) (by decide) (by decide)

end PtsDns
