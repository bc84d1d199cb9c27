/-
# The output rule on the spec's ledger, phase by phase

`Validator.lean` states the output rule against any oracle. On the ledger the spec describes
(`Ledger.dnsDb`), the oracle's answers become facts about a name's record, and the decision
table becomes a table over the phase of the name: no live record, a live record in auction,
or a live record whose auction is over (`Ledger.namePhase`). `NamePhase.Admits` is that
table as the spec states it (§4.4, §8), and the code is proved to implement it:

* `Ledger.validateOutput_eq_ok_iff_admits` : against a ledger whose records have distinct
  output references, `validate_output` accepts a claim output, leaving a given transaction
  state and name pool, exactly when the output is the first well-formed one and its name's
  phase admits it with that state;
* `Ledger.accepted_bid_terms` : an accepted bid beats the amount it outbids by the policy's
  increment, refunds the outbid owner at least that amount, and owes between nothing and the
  raise in fees.

The output rule reads the auction state of a name's record through the record's output
reference (`auction_is_closed(prev_tx_ref)`), so the table assumes that no two records
share one; `Lifecycle.lean` shows that runs of blocks keep it so.
-/
import Mathlib.Data.List.Nodup
import PtsDns.Validator
import PtsDns.Ledger

namespace PtsDns

/-! ## Phases -/

/-- The phase of a name: no live record, a live record in auction, or a live record whose
auction is over. -/
inductive NamePhase where
  | free
  | inAuction
  | settled
  deriving DecidableEq, Repr

/-- The branch of the output rule a phase admits. -/
def NamePhase.branch : NamePhase → ClaimBranch
  | .free => .freshClaim
  | .inAuction => .bid
  | .settled => .update

/-- The phase of a name at the ledger's height. -/
def Ledger.namePhase (P : DnsPolicy) (l : Ledger) (n : String) : NamePhase :=
  match l.record? n with
  | none => .free
  | some r =>
    if l.expired P r then .free else if l.auctionClosed P r then .settled else .inAuction

/-- The output references of the ledger's records. -/
def Ledger.refs (l : Ledger) : List OutputReference :=
  l.records.map (·.outputRef)

/-- No two records of the ledger share an output reference. -/
def Ledger.RefsUnique (l : Ledger) : Prop :=
  l.refs.Nodup

instance (l : Ledger) : Decidable l.RefsUnique :=
  inferInstanceAs (Decidable l.refs.Nodup)

/-- Modelled from the spec (§4.4 steps 3 to 5, §8): what each phase of a name admits of a
claim output `o` of amount `A`, checked in transaction state `s` against the name pool
`pool`, and the state `s'` it leaves. A free name takes only a fresh claim, made without a
domain input, of a name not yet pooled. A name in auction takes only a bid that spends a
domain input of the same name, in auction, not yet pooled, that beats the input's amount by
the increment and pays the input's owner the policy's refund in the ledger's asset; the bid
owes the rest as fees. A settled name takes only an update or sale that spends a domain
input of the same name, keeps the amount when it leaves the auction, and is signed by the
new owner. -/
def NamePhase.Admits (P : DnsPolicy) (trx : SignedTransaction) (s : DnsTxEvaluationState)
    (o : ClaimDomainOutput) (A : Int) (pool : List String) :
    NamePhase → DnsTxEvaluationState → Prop
  | .free, s' => s.seenDomainInput = false ∧ o.name ∉ pool ∧
      s' = { s with seenDomainOutput := true }
  | .inAuction, s' => s.seenDomainInput = true ∧ o.name = s.input.name ∧ o.name ∉ pool ∧
      s.input.state = .possiblyInAuction ∧ s.inputAmount + P.minBidIncrement ≤ A ∧
      (∃ out ∈ trx.outputs, out.claim = .bySignature s.input.owner ∧ out.unit = P.unit ∧
        P.refund s.inputAmount A ≤ out.amount) ∧
      s' = { s with
        seenDomainOutput := true, requiredFees := s.requiredFees + (A - P.refund s.inputAmount A) }
  | .settled, s' => s.seenDomainInput = true ∧ o.name = s.input.name ∧
      (o.state = .notInAuction → A = s.inputAmount) ∧ o.owner ∈ trx.signers ∧
      s' = { s with seenDomainOutput := true }

/-! ## Looking records up -/

/-- In a list with distinct keys, looking up a member's key finds the member. -/
theorem find?_key_of_mem {α β : Type} [BEq β] [LawfulBEq β] {key : α → β} {L : List α}
    (h : (L.map key).Nodup) {a : α} (ha : a ∈ L) :
    L.find? (fun x => key x == key a) = some a := by
  induction L with
  | nil => cases ha
  | cons x L ih =>
    rw [List.map_cons, List.nodup_cons] at h
    rcases List.mem_cons.1 ha with rfl | ha
    · simp
    · have hne : key x ≠ key a := fun he => h.1 (he ▸ List.mem_map_of_mem key ha)
      simp [hne, ih h.2 ha]

/-- The record of a name is a record of the ledger, and has that name. -/
theorem Ledger.mem_of_record? {l : Ledger} {n : String} {r : DnsRecord}
    (h : l.record? n = some r) : r ∈ l.records ∧ r.claim.name = n :=
  ⟨List.mem_of_find?_eq_some h, by simpa using List.find?_some h⟩

/-- A record of the ledger is the record of its name. -/
theorem Ledger.record?_of_mem {l : Ledger} {r : DnsRecord} (hr : r ∈ l.records) :
    l.record? r.claim.name = some r :=
  @find?_key_of_mem _ _ _ _ (fun r : DnsRecord => r.claim.name) _ l.names_nodup _ hr

/-- With unique output references, a record is the record its output reference finds. -/
theorem Ledger.recordAt?_of_mem {l : Ledger} (hrefs : l.RefsUnique) {r : DnsRecord}
    (hr : r ∈ l.records) : l.recordAt? r.outputRef = some r :=
  @find?_key_of_mem _ _ _ _ (fun r : DnsRecord => r.outputRef) _ hrefs _ hr

/-! ## What the spec's oracle reports -/

/-- On the spec's ledger, the bid price is valid exactly when the bid beats the last amount
by the policy's increment, and the refund is then the policy's. -/
theorem Ledger.isValidBidPrice_eq_some (P : DnsPolicy) (l : Ledger) {prev bid back : Int} :
    (l.dnsDb P).isValidBidPrice prev bid = some back ↔
      prev + P.minBidIncrement ≤ bid ∧ P.refund prev bid = back := by
  simp only [Ledger.dnsDb]
  split_ifs with h <;> simp [h]

/-- What the spec's oracle reports for a name that holds a record. -/
theorem Ledger.nameIsAvailable_of_record (P : DnsPolicy) {l : Ledger} {n : String}
    {r : DnsRecord} (hrec : l.record? n = some r) (pool : List String) :
    l.nameIsAvailable P n pool =
      ⟨decide (n ∉ pool) && (l.expired P r || !l.auctionClosed P r), l.expired P r,
        r.outputRef⟩ := by
  simp [Ledger.nameIsAvailable, hrec]

/-! ## The phase table -/

section Table

variable (P : DnsPolicy) {l : Ledger} (hrefs : l.RefsUnique) {trx : SignedTransaction}
  {s s' : DnsTxEvaluationState} {o : ClaimDomainOutput} {A : Int} (pool : List String)
include hrefs

/-- Against a ledger whose records have distinct output references, the decision table
accepts an output on some branch exactly when its name's phase admits it. -/
theorem Ledger.exists_outputRule_iff_admits :
    (∃ br, OutputRule (l.dnsDb P) trx s o A (l.nameIsAvailable P o.name pool) br s') ↔
      (l.namePhase P o.name).Admits P trx s o A pool s' := by
  unfold Ledger.namePhase
  cases hrec : l.record? o.name with
  | none => simp [outputRule_iff, NamePhase.Admits, Ledger.nameIsAvailable, hrec]
  | some r =>
    have hat := Ledger.recordAt?_of_mem hrefs (Ledger.mem_of_record? hrec).1
    rw [Ledger.nameIsAvailable_of_record P hrec]
    cases he : l.expired P r <;> cases hc : l.auctionClosed P r <;>
      simp [outputRule_iff, NamePhase.Admits, Ledger.isValidBidPrice_eq_some, hat, he, hc,
        and_assoc]

/-- **The output rule on the spec's ledger is the phase table.** Against a ledger whose
records have distinct output references, `validate_output` accepts a claim output, leaving
the transaction state `s'` and the block state `b'`, exactly when no domain output was seen
yet, the output is well formed, its name's phase admits it leaving `s'`, and `b'` pools its
name. -/
theorem Ledger.validateOutput_eq_ok_iff_admits (g : GenericValidator) {u : Nat}
    {b b' : DnsBlockEvaluationState} :
    validateOutput (l.dnsDb P) g trx ⟨A, u, .domain o⟩ s b = .ok (s', b') ↔
      s.seenDomainOutput = false ∧ (l.dnsDb P).WellFormedClaim o A ∧
        (l.namePhase P o.name).Admits P trx s o A b.namePool s' ∧
        b' = ⟨b.namePool ++ [o.name]⟩ := by
  rw [validateOutput_decision_table, Ledger.dnsDb_nameIsAvailable,
    Ledger.exists_outputRule_iff_admits P hrefs, and_assoc, and_assoc]

end Table

/-- Key 1's record of `"alice"` for 100, written at height 1 by output `(1, 0)`. -/
def aliceAuctionRecord : DnsRecord :=
  ⟨⟨"alice", "", .possiblyInAuction, ⟨1⟩⟩, 100, 1, ⟨1, 0⟩⟩

/-- The record read at height 2, while its auction is open. -/
def aliceAuctionLedger : Ledger :=
  ⟨[aliceAuctionRecord], 2, by decide⟩

/-- The state after spending key 1's record output as the domain input. -/
def aliceBidState : DnsTxEvaluationState :=
  { DnsTxEvaluationState.init with
    seenDomainInput := true, input := ⟨"alice", "", .possiblyInAuction, ⟨1⟩⟩,
    inputAmount := 100 }

/-- Key 2 bids 200 on `"alice"` and pays 100 back to key 1. -/
def aliceBidTrx : SignedTransaction :=
  ⟨[⟨200, 0, .domain ⟨"alice", "", .possiblyInAuction, ⟨2⟩⟩⟩, ⟨100, 0, .bySignature ⟨1⟩⟩],
    [⟨2⟩]⟩

/-- While key 1's auction is open, key 2's bid is accepted exactly as the bid row of the
table admits it, owing the raise of 100 in fees. -/
theorem aliceBid_admitted :
    aliceAuctionLedger.RefsUnique ∧
      (validateOutput (aliceAuctionLedger.dnsDb .sample) .acceptAll aliceBidTrx
          ⟨200, 0, .domain ⟨"alice", "", .possiblyInAuction, ⟨2⟩⟩⟩ aliceBidState
          createBlockState =
        .ok ({ aliceBidState with seenDomainOutput := true, requiredFees := 0 + (200 - 100) },
          ⟨["alice"]⟩) ↔
      aliceBidState.seenDomainOutput = false ∧
        (aliceAuctionLedger.dnsDb .sample).WellFormedClaim
          ⟨"alice", "", .possiblyInAuction, ⟨2⟩⟩ 200 ∧
        (aliceAuctionLedger.namePhase .sample "alice").Admits .sample aliceBidTrx aliceBidState
          ⟨"alice", "", .possiblyInAuction, ⟨2⟩⟩ 200 createBlockState.namePool
          { aliceBidState with seenDomainOutput := true, requiredFees := 0 + (200 - 100) } ∧
        (⟨["alice"]⟩ : DnsBlockEvaluationState) = ⟨createBlockState.namePool ++ ["alice"]⟩) :=
  ⟨by decide, Ledger.validateOutput_eq_ok_iff_admits .sample (by decide) .acceptAll⟩

/-! ## Bids -/

/-- **The terms of an accepted bid on the spec's ledger.** A bid the code accepts beats the
amount it outbids by the policy's increment, pays the outbid owner at least that amount
back, and owes fees of at least nothing and at most the raise. -/
theorem Ledger.accepted_bid_terms (P : DnsPolicy) (l : Ledger) {trx : SignedTransaction}
    {o : ClaimDomainOutput} {A : Int} {pool : List String} {s s' : DnsTxEvaluationState}
    (h : validateDomainOutput (l.dnsDb P) trx o A pool s = .ok s')
    (hbid : claimBranch (l.dnsDb P) s ((l.dnsDb P).nameIsAvailable o.name pool) = .bid) :
    s.inputAmount + P.minBidIncrement ≤ A ∧
      (∃ out ∈ trx.outputs,
        out.claim = .bySignature s.input.owner ∧ s.inputAmount ≤ out.amount) ∧
      s.requiredFees ≤ s'.requiredFees ∧
      s'.requiredFees ≤ s.requiredFees + (A - s.inputAmount) := by
  obtain ⟨-, -, br, hr⟩ := validateDomainOutput_eq_ok_iff.1 h
  obtain rfl := hr.branch_eq.trans hbid
  cases hr with
  | bid back _ _ _ _ _ _ hprice hrefund =>
    obtain ⟨hinc, rfl⟩ := (Ledger.isValidBidPrice_eq_some P l).1 hprice
    obtain ⟨out, hmem, hclaim, hpaid⟩ := hrefund
    have hlow := P.le_refund s.inputAmount A
    have hhigh := P.refund_le s.inputAmount A hinc
    have hpaid := (Ledger.dnsDb_amountAtLeast P l).1 hpaid
    exact ⟨hinc, ⟨out, hmem, hclaim, by omega⟩, by simp only; omega, by simp only; omega⟩

/-- Key 2's bid is accepted on the bid branch and owes the raise of 100 in fees. -/
theorem accepted_bid_terms_sample :
    validateDomainOutput (aliceAuctionLedger.dnsDb .sample) aliceBidTrx
        ⟨"alice", "", .possiblyInAuction, ⟨2⟩⟩ 200 [] aliceBidState =
      .ok { aliceBidState with seenDomainOutput := true, requiredFees := 0 + (200 - 100) } ∧
    claimBranch (aliceAuctionLedger.dnsDb .sample) aliceBidState
        ((aliceAuctionLedger.dnsDb .sample).nameIsAvailable "alice" []) = .bid ∧
    (aliceBidState.inputAmount + DnsPolicy.sample.minBidIncrement ≤ 200 ∧
      (∃ out ∈ aliceBidTrx.outputs, out.claim = .bySignature aliceBidState.input.owner ∧
        aliceBidState.inputAmount ≤ out.amount) ∧
      aliceBidState.requiredFees ≤ 0 + (200 - 100) ∧
      (0 + (200 - 100) : Int) ≤ aliceBidState.requiredFees + (200 - aliceBidState.inputAmount)) :=
  ⟨rfl, rfl, @Ledger.accepted_bid_terms .sample aliceAuctionLedger aliceBidTrx
    ⟨"alice", "", .possiblyInAuction, ⟨2⟩⟩ 200 [] aliceBidState _ rfl rfl⟩

end PtsDns
