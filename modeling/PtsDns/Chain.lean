/-
# Runs of blocks

Between blocks the ledger moves on: each block is validated against the ledger as the blocks
before it left it (spec §5), and then the domain outputs of its accepted transactions are
committed, each writing its name's record at the block's height (spec §3). An expired record
is not erased; it stays until a fresh claim of its name supersedes it, and the output that
held it may still be unspent.

* `Ledger.applyBlock_height` : committing a block moves the ledger one block on;
* `Ledger.record?_commitClaim` : after a commit, the name's record is the committed one;
* `mem_acceptedTransactions` : a transaction a block accepts is accepted by its own run
  from the block state the transactions before it leave;
* `Ledger.applyBlocks_record_provenance` : every record a run of blocks leaves was written,
  at its block's height, by a transaction that block accepted, with a domain output that
  passed the decision table;
* `Ledger.applyBlock_perm` : in a block whose transactions claim disjoint names, each
  transaction is accepted as it is alone, writes the names it claims as it would alone, and
  the order of the transactions does not change any name's record;
* `stale_record_input_outbids_current_owner` : a run in which the output of an expired
  record, still unspent after a fresh claim superseded it, bids on the name again;
* `fresh_claim_shuts_auction` : a run in which a fresh claim that picked `not_in_auction`
  turns the next block's bid away.
-/
import PtsDns.Block

namespace PtsDns

/-! ## Transactions on the chain -/

/-- Modelled from the spec: a transaction as a block carries it: its hash, the outputs it
spends (with what they hold, as `on_evaluate` resolves them), and the signed transaction. -/
structure ChainTransaction where
  hash : Nat
  inputs : List MetaTrxInput
  trx : SignedTransaction

/-- The domain outputs of a transaction, with the references they are committed under. -/
def ChainTransaction.claims (t : ChainTransaction) :
    List (OutputReference × ClaimDomainOutput × Int) :=
  t.trx.outputs.enum.filterMap fun (i, out) =>
    out.domainClaim?.map fun c => (⟨t.hash, i⟩, c, out.amount)

/-- The transaction as the block validator dispatches it, inputs first. -/
def ChainTransaction.toTxRun (t : ChainTransaction) : TxRun :=
  .ofTrx t.trx t.inputs

/-! ## Committing blocks -/

@[simp] theorem ChainTransaction.toTxRun_trx (t : ChainTransaction) : t.toTxRun.trx = t.trx :=
  rfl

/-- The transactions of a block that the validator accepts, in order, when it validates
them from block state `b`. -/
def acceptedTransactions (db : DnsDb) (g : GenericValidator) (blk : List ChainTransaction)
    (b : DnsBlockEvaluationState) : List ChainTransaction :=
  let verdicts := (validateBlock db g (blk.map (·.toTxRun)) b).1
  (blk.zip verdicts).filterMap fun (t, v) => if v.toBool then some t else none

/-- A transaction of a block is accepted when its own run, from the block state the
transactions before it left, accepts. -/
theorem acceptedTransactions_cons (db : DnsDb) (g : GenericValidator) (t : ChainTransaction)
    (blk : List ChainTransaction) (b : DnsBlockEvaluationState) :
    acceptedTransactions db g (t :: blk) b =
      if (runDispatches db g t.trx t.toTxRun.dispatches .init b).1.toBool then
        t :: acceptedTransactions db g blk
          (runDispatches db g t.trx t.toTxRun.dispatches .init b).2
      else
        acceptedTransactions db g blk
          (runDispatches db g t.trx t.toTxRun.dispatches .init b).2 := by
  simp only [acceptedTransactions, List.map_cons, validateBlock, List.zip_cons_cons,
    List.filterMap_cons, ChainTransaction.toTxRun_trx]
  cases (runDispatches db g t.trx t.toTxRun.dispatches .init b).1.toBool <;> rfl

/-- A transaction is accepted in a block when it is the block's first and its run accepts,
or when the rest of the block, from the block state the first leaves, accepts it. -/
theorem mem_acceptedTransactions_cons {db : DnsDb} {g : GenericValidator}
    {t t' : ChainTransaction} {blk : List ChainTransaction} {b : DnsBlockEvaluationState} :
    t ∈ acceptedTransactions db g (t' :: blk) b ↔
      (t = t' ∧ (runDispatches db g t'.trx t'.toTxRun.dispatches .init b).1.toBool = true) ∨
        t ∈ acceptedTransactions db g blk
          (runDispatches db g t'.trx t'.toTxRun.dispatches .init b).2 := by
  rw [acceptedTransactions_cons]
  split <;> simp_all

/-- **Accepted transactions were accepted where they stand.** A transaction a block accepts
stands in the block after some transactions `before`, and its own run, from the block state
that `before` leaves, accepts. -/
theorem mem_acceptedTransactions {db : DnsDb} {g : GenericValidator}
    {blk : List ChainTransaction} {b : DnsBlockEvaluationState} {t : ChainTransaction}
    (ht : t ∈ acceptedTransactions db g blk b) :
    ∃ before after, blk = before ++ t :: after ∧
      (runDispatches db g t.trx t.toTxRun.dispatches .init
        (validateBlock db g (before.map (·.toTxRun)) b).2).1.toBool = true := by
  induction blk generalizing b with
  | nil => simp [acceptedTransactions] at ht
  | cons t' blk ih =>
    rcases mem_acceptedTransactions_cons.1 ht with ⟨rfl, hok⟩ | ht
    · exact ⟨[], blk, rfl, hok⟩
    · obtain ⟨before, after, rfl, hok⟩ := ih ht
      exact ⟨t' :: before, after, rfl, hok⟩

/-- The accepted transactions of a block, in block order. -/
theorem acceptedTransactions_sublist (db : DnsDb) (g : GenericValidator)
    (blk : List ChainTransaction) (b : DnsBlockEvaluationState) :
    (acceptedTransactions db g blk b).Sublist blk := by
  induction blk generalizing b with
  | nil => exact List.Sublist.slnil
  | cons t blk ih =>
    rw [acceptedTransactions_cons]
    split
    · exact (ih _).cons₂ t
    · exact (ih _).cons t

/-- **Independent transactions are accepted on their own.** Under the locality contract of
the oracle, in a block whose transactions claim pairwise disjoint names, the accepted
transactions are those accepted alone against the block's starting pool. -/
theorem acceptedTransactions_of_pairwise_disjoint {db : DnsDb} {g : GenericValidator}
    (hloc : db.PoolLocal) {blk : List ChainTransaction}
    (hind : blk.Pairwise fun t₁ t₂ => t₁.toTxRun.outputNames.Disjoint t₂.toTxRun.outputNames)
    (b : DnsBlockEvaluationState) :
    acceptedTransactions db g blk b =
      blk.filter fun t => (runDispatches db g t.trx t.toTxRun.dispatches .init b).1.toBool := by
  have hv : (validateBlock db g (blk.map (·.toTxRun)) b).1 =
      blk.map fun t => (runDispatches db g t.trx t.toTxRun.dispatches .init b).1 := by
    simpa using (validateBlock_append_pool hloc _ (List.pairwise_map.2 hind) b [] (by simp)).1
  simp only [acceptedTransactions, hv]
  clear hind hv
  induction blk with
  | nil => rfl
  | cons t blk ih =>
    simp only [List.map_cons, List.zip_cons_cons, List.filterMap_cons, List.filter_cons, ih]
    cases (runDispatches db g t.trx t.toTxRun.dispatches .init b).1.toBool <;> rfl

section Commit

variable (P : DnsPolicy) (g : GenericValidator)

/-- Commit claim outputs in order. -/
def Ledger.commitClaims (l : Ledger) (cs : List (OutputReference × ClaimDomainOutput × Int)) :
    Ledger :=
  cs.foldl (fun l (ref, c, amount) => l.commitClaim ref c amount) l

/-- Commit the domain outputs of one transaction. -/
def Ledger.commitTransaction (l : Ledger) (t : ChainTransaction) : Ledger :=
  l.commitClaims t.claims

/-- Modelled from the spec: a block is validated against the ledger on one fresh block
state; the domain outputs of its accepted transactions are committed at its height, and the
ledger moves to the next height. -/
def Ledger.applyBlock (l : Ledger) (blk : List ChainTransaction) : Ledger :=
  let l' := (acceptedTransactions (l.dnsDb P) g blk createBlockState).foldl
    Ledger.commitTransaction l
  ⟨l'.records, l.height + 1, l'.names_nodup⟩

/-- The ledger after a run of blocks. -/
def Ledger.applyBlocks (l : Ledger) (blocks : List (List ChainTransaction)) : Ledger :=
  blocks.foldl (Ledger.applyBlock P g) l

/-- The block state the transactions `before` leave, in a block that starts with them and is
validated against the ledger. -/
def Ledger.blockStateAfter (l : Ledger) (before : List ChainTransaction) :
    DnsBlockEvaluationState :=
  (validateBlock (l.dnsDb P) g (before.map (·.toTxRun)) createBlockState).2

/-- How a transaction `t` that stands after `before` in a block writes record `r`: its run,
from the block state that `before` leaves, is accepted against the ledger the block starts
from; it commits one of its domain outputs as `r`; and its claim log holds that output with
its amount, having passed the decision table on branch `br`. -/
structure Ledger.WrittenBy (l : Ledger) (before : List ChainTransaction) (t : ChainTransaction)
    (br : ClaimBranch) (r : DnsRecord) : Prop where
  accepted : (runDispatches (l.dnsDb P) g t.trx t.toTxRun.dispatches .init
    (l.blockStateAfter P g before)).1.toBool = true
  committed : (r.outputRef, r.claim, r.amount) ∈ t.claims
  logged : ∃ e ∈ acceptedClaims (l.dnsDb P) g t.trx t.toTxRun.dispatches .init
      (l.blockStateAfter P g before), e.output = r.claim ∧ e.amount = r.amount ∧
    ∃ s', OutputRule (l.dnsDb P) t.trx e.state e.output e.amount (e.status (l.dnsDb P)) br s'

@[simp] theorem Ledger.commitClaims_cons (l : Ledger) (ref : OutputReference)
    (c : ClaimDomainOutput) (amount : Int) (cs : List (OutputReference × ClaimDomainOutput × Int)) :
    l.commitClaims ((ref, c, amount) :: cs) = (l.commitClaim ref c amount).commitClaims cs :=
  rfl

/-- Committing claims one list after another. -/
theorem Ledger.commitClaims_append (l : Ledger)
    (cs₁ cs₂ : List (OutputReference × ClaimDomainOutput × Int)) :
    l.commitClaims (cs₁ ++ cs₂) = (l.commitClaims cs₁).commitClaims cs₂ :=
  List.foldl_append _ _ _ _

/-- Committing transactions in order commits their claims in order. -/
theorem Ledger.foldl_commitTransaction (l : Ledger) (ts : List ChainTransaction) :
    ts.foldl Ledger.commitTransaction l = l.commitClaims (ts.flatMap (·.claims)) := by
  induction ts generalizing l with
  | nil => rfl
  | cons t ts ih => rw [List.foldl_cons, ih, List.flatMap_cons, Ledger.commitClaims_append]; rfl

/-- The records after a block are those its accepted transactions commit. -/
theorem Ledger.record?_applyBlock_eq (l : Ledger) (blk : List ChainTransaction) (n : String) :
    (l.applyBlock P g blk).record? n =
      (l.commitClaims ((acceptedTransactions (l.dnsDb P) g blk createBlockState).flatMap
        (·.claims))).record? n := by
  rw [← Ledger.foldl_commitTransaction]
  rfl

@[simp] theorem Ledger.commitClaim_height (l : Ledger) (ref : OutputReference)
    (c : ClaimDomainOutput) (amount : Int) : (l.commitClaim ref c amount).height = l.height :=
  rfl

@[simp] theorem Ledger.commitClaims_height (l : Ledger)
    (cs : List (OutputReference × ClaimDomainOutput × Int)) :
    (l.commitClaims cs).height = l.height := by
  induction cs generalizing l with
  | nil => rfl
  | cons x cs ih => exact (ih _).trans (Ledger.commitClaim_height _ _ _ _)

/-- **Committing a block moves the ledger one block on.** -/
theorem Ledger.applyBlock_height (l : Ledger) (blk : List ChainTransaction) :
    (l.applyBlock P g blk).height = l.height + 1 := rfl

/-- A run of blocks moves the ledger one block on per block. -/
theorem Ledger.applyBlocks_height (l : Ledger) (blocks : List (List ChainTransaction)) :
    (l.applyBlocks P g blocks).height = l.height + blocks.length := by
  induction blocks generalizing l with
  | nil => rfl
  | cons blk blocks ih =>
    simp only [Ledger.applyBlocks, List.foldl_cons] at ih ⊢
    rw [ih, Ledger.applyBlock_height, List.length_cons]
    omega

end Commit

/-- **After a commit, the name's record is the committed one**, written at the current
height and held by the committed output. -/
theorem Ledger.record?_commitClaim (l : Ledger) (ref : OutputReference)
    (c : ClaimDomainOutput) (amount : Int) :
    (l.commitClaim ref c amount).record? c.name = some ⟨c, amount, l.height, ref⟩ := by
  simp [Ledger.record?, Ledger.commitClaim]

/-- A commit leaves the records of other names alone. -/
theorem Ledger.record?_commitClaim_of_ne (l : Ledger) (ref : OutputReference)
    (c : ClaimDomainOutput) (amount : Int) {n : String} (hn : c.name ≠ n) :
    (l.commitClaim ref c amount).record? n = l.record? n := by
  simp only [Ledger.record?, Ledger.commitClaim, List.find?_cons, beq_false_of_ne hn,
    List.find?_filter]
  congr 1
  funext r
  by_cases h : r.claim.name = n
  · simp [h, Ne.symm hn]
  · simp [h]

/-! ## A stale record output bids again -/

/-- Key 1's fresh claim of `"alice"` (hash 1), with 500 more paid to key 1 beside it. -/
def firstAliceClaim : ChainTransaction :=
  ⟨1, [], ⟨[⟨100, 0, .domain ⟨"alice", "", .possiblyInAuction, ⟨1⟩⟩⟩, ⟨500, 0, .bySignature ⟨1⟩⟩],
    [⟨1⟩]⟩⟩

/-- Key 2's fresh claim of `"alice"` (hash 2) for 1000, once key 1's record has expired. -/
def secondAliceClaim : ChainTransaction :=
  ⟨2, [], ⟨[⟨1000, 0, .domain ⟨"alice", "", .possiblyInAuction, ⟨2⟩⟩⟩], [⟨2⟩]⟩⟩

/-- Key 1 claims `"alice"` at height 1; five empty blocks later the record has expired, and
key 2 claims the name afresh at height 7. Key 1's record output is never spent. -/
def staleRecordChain : List (List ChainTransaction) :=
  [[firstAliceClaim], [], [], [], [], [], [secondAliceClaim]]

/-- The ledger at height 8, after the run. -/
def staleRecordLedger : Ledger :=
  (Ledger.empty 1).applyBlocks .sample .acceptAll staleRecordChain

/-- At height 8, key 1 spends its old record output (and its 500) into a bid of 200 on
`"alice"`, refunding 100 to itself. -/
def staleRecordBid : ChainTransaction :=
  ⟨3, [⟨⟨1, 0⟩, ⟨100, 0, .domain ⟨"alice", "", .possiblyInAuction, ⟨1⟩⟩⟩⟩,
      ⟨⟨1, 1⟩, ⟨500, 0, .bySignature ⟨1⟩⟩⟩],
    ⟨[⟨200, 0, .domain ⟨"alice", "", .possiblyInAuction, ⟨1⟩⟩⟩, ⟨100, 0, .bySignature ⟨1⟩⟩], [⟨1⟩]⟩⟩

/-- The bid spending the superseded record output is accepted on the bid branch, although
the name's current record is key 2's, held by another output, for 1000: the bid is priced
against the stale amount and refunds the stale owner. -/
theorem stale_record_input_outbids_current_owner :
    (evaluate (staleRecordLedger.dnsDb .sample) .acceptAll staleRecordBid.trx
        staleRecordBid.inputs createBlockState).1.toBool = true ∧
      (acceptedClaims (staleRecordLedger.dnsDb .sample) .acceptAll staleRecordBid.trx
          staleRecordBid.toTxRun.dispatches .init createBlockState).map
        (·.branch (staleRecordLedger.dnsDb .sample)) = [.bid] ∧
      staleRecordBid.inputs.map (·.outputRef) = [⟨1, 0⟩, ⟨1, 1⟩] ∧
      (staleRecordLedger.nameIsAvailable .sample "alice" []).prevTxRef = ⟨2, 0⟩ ∧
      (staleRecordLedger.record? "alice").map (fun r => (r.claim.owner, r.amount)) =
        some (⟨2⟩, 1000) ∧
      (⟨1, 0⟩ : OutputReference) ∉
        (staleRecordChain.flatten.flatMap (·.inputs)).map (·.outputRef) := by
  decide

/-! ## A claim outside any auction turns bids away -/

/-- Key 1's fresh claim of `"alice"` (hash 1) in the given auction state. -/
def aliceClaimIn (state : ClaimState) : ChainTransaction :=
  ⟨1, [], ⟨[⟨100, 0, .domain ⟨"alice", "", state, ⟨1⟩⟩⟩], [⟨1⟩]⟩⟩

/-- At height 2, while the auction is open, key 2 bids 200 on `"alice"`, refunding key 1. -/
def bidOnAlice (state : ClaimState) : ChainTransaction :=
  ⟨2, [⟨⟨1, 0⟩, ⟨100, 0, .domain ⟨"alice", "", state, ⟨1⟩⟩⟩⟩],
    ⟨[⟨200, 0, .domain ⟨"alice", "", .possiblyInAuction, ⟨2⟩⟩⟩, ⟨100, 0, .bySignature ⟨1⟩⟩], [⟨2⟩]⟩⟩

/-- Key 2's bid in the block after key 1's claim in the given auction state. -/
def bidAfterClaim (state : ClaimState) : Except String DnsTxEvaluationState :=
  let l := (Ledger.empty 1).applyBlocks .sample .acceptAll [[aliceClaimIn state]]
  (evaluate (l.dnsDb .sample) .acceptAll (bidOnAlice state).trx (bidOnAlice state).inputs
    createBlockState).1

/-- A fresh claim that picks `not_in_auction` is accepted on the fresh-claim branch, and in
the next block, with its auction still open, a bid on it is refused ("Input not for
auction"); the same bid on a claim in `possibly_in_auction` is accepted. -/
theorem fresh_claim_shuts_auction :
    (evaluate ((Ledger.empty 1).dnsDb .sample) .acceptAll (aliceClaimIn .notInAuction).trx []
        createBlockState).1.toBool = true ∧
      (acceptedClaims ((Ledger.empty 1).dnsDb .sample) .acceptAll
          (aliceClaimIn .notInAuction).trx (aliceClaimIn .notInAuction).toTxRun.dispatches .init
          createBlockState).map
        (fun e => (e.branch ((Ledger.empty 1).dnsDb .sample), e.output.state)) =
        [(.freshClaim, .notInAuction)] ∧
      bidAfterClaim .notInAuction = .error "Input not for auction" ∧
      (bidAfterClaim .possiblyInAuction).toBool = true :=
  ⟨by decide, by decide, rfl, by decide⟩

/-! ## Where records come from -/

/-- A commit adds the committed record and keeps only old ones. -/
theorem Ledger.mem_commitClaim {l : Ledger} {ref : OutputReference} {c : ClaimDomainOutput}
    {amount : Int} {r : DnsRecord} (hr : r ∈ (l.commitClaim ref c amount).records) :
    r = ⟨c, amount, l.height, ref⟩ ∨ r ∈ l.records := by
  simp only [Ledger.commitClaim, List.mem_cons, List.mem_filter] at hr
  exact hr.imp_right And.left

/-- Committing claims adds records only for those claims, at the current height. -/
theorem Ledger.mem_commitClaims {l : Ledger}
    {cs : List (OutputReference × ClaimDomainOutput × Int)} {r : DnsRecord}
    (hr : r ∈ (l.commitClaims cs).records) :
    r ∈ l.records ∨
      (r.outputRef, r.claim, r.amount) ∈ cs ∧ r.lastUpdateHeight = l.height := by
  induction cs generalizing l with
  | nil => exact .inl hr
  | cons x cs ih =>
    obtain ⟨ref, c, amount⟩ := x
    rcases ih hr with hr | ⟨hmem, hh⟩
    · rcases Ledger.mem_commitClaim hr with rfl | hr
      · exact .inr ⟨List.mem_cons_self _ _, rfl⟩
      · exact .inl hr
    · exact .inr ⟨List.mem_cons_of_mem _ hmem, hh⟩

/-- Committing transactions adds records only for their claims, at the current height. -/
theorem Ledger.mem_foldl_commitTransaction {l : Ledger} {ts : List ChainTransaction}
    {r : DnsRecord} (hr : r ∈ (ts.foldl Ledger.commitTransaction l).records) :
    r ∈ l.records ∨
      ∃ t ∈ ts, (r.outputRef, r.claim, r.amount) ∈ t.claims ∧
        r.lastUpdateHeight = l.height := by
  induction ts generalizing l with
  | nil => exact .inl hr
  | cons t ts ih =>
    rcases ih hr with hr | ⟨t', ht', hmem, hh⟩
    · exact (Ledger.mem_commitClaims hr).imp_right fun h => ⟨t, List.mem_cons_self _ _, h⟩
    · exact .inr ⟨t', List.mem_cons_of_mem _ ht', hmem,
        hh.trans (Ledger.commitClaims_height _ _)⟩

section Provenance

variable {P : DnsPolicy} {g : GenericValidator}

/-- **Step: a block writes only claims the validator accepted.** A record of the ledger after
a block was there before, or was written at the block's height by a transaction of the
block that the block accepted, with a domain output that passed the decision table. -/
theorem Ledger.mem_applyBlock {l : Ledger} {blk : List ChainTransaction} {r : DnsRecord}
    (hr : r ∈ (l.applyBlock P g blk).records) :
    r ∈ l.records ∨ r.lastUpdateHeight = l.height ∧ ∃ before t after,
      blk = before ++ t :: after ∧ ∃ br, l.WrittenBy P g before t br r := by
  refine (Ledger.mem_foldl_commitTransaction hr).imp_right ?_
  rintro ⟨t, ht, hmem, hh⟩
  obtain ⟨before, after, hblk, hok⟩ := mem_acceptedTransactions ht
  obtain ⟨s', hs'⟩ := Except.toBool_eq_true.1 hok
  obtain ⟨⟨i, out⟩, hout, hc⟩ := List.mem_filterMap.1 hmem
  obtain ⟨c, hc, hrc⟩ := Option.map_eq_some'.1 hc
  obtain ⟨e, he, h₁, h₂⟩ := acceptedClaims_of_mem_outputs hs'
    (List.mem_append_right _ (List.mem_map_of_mem _ (List.snd_mem_of_mem_enum hout))) hc
  obtain ⟨-, -, br, s'', hrule⟩ := acceptedClaims_outputRule he
  simp only [Prod.mk.injEq] at hrc
  exact ⟨hh, before, t, after, hblk, br, hok, hmem,
    e, he, h₁.trans hrc.2.1, h₂.trans hrc.2.2, s'', hrule⟩

/-- **Every record was written by a claim the validator accepted.** A record of the ledger
after a run of blocks was there before the run, or was written by some block of the run, at
that block's height, by a transaction the block accepted, against the ledger as the earlier
blocks left it and from the block state the transactions before it left, with a domain
output that passed the decision table. -/
theorem Ledger.applyBlocks_record_provenance (l : Ledger) (blocks : List (List ChainTransaction))
    {r : DnsRecord} (hr : r ∈ (l.applyBlocks P g blocks).records) :
    r ∈ l.records ∨ ∃ pre blk post, blocks = pre ++ blk :: post ∧
      r.lastUpdateHeight = l.height + pre.length ∧ ∃ before t after,
        blk = before ++ t :: after ∧ ∃ br, (l.applyBlocks P g pre).WrittenBy P g before t br r := by
  induction blocks generalizing l with
  | nil => exact .inl hr
  | cons blk blocks ih =>
    rcases ih _ hr with hr | ⟨pre, blk', post, rfl, hh, rest⟩
    · exact (Ledger.mem_applyBlock hr).imp_right fun ⟨hh, rest⟩ =>
        ⟨[], blk, blocks, rfl, by simpa using hh, rest⟩
    · refine .inr ⟨blk :: pre, blk', post, rfl, ?_, rest⟩
      rw [hh, Ledger.applyBlock_height, List.length_cons]
      omega

end Provenance

/-- Key 2's record of `"alice"` at the end of the stale-record run. -/
def secondAliceRecord : DnsRecord :=
  ⟨⟨"alice", "", .possiblyInAuction, ⟨2⟩⟩, 1000, 7, ⟨2, 0⟩⟩

/-- Key 2's record was written at height 7 by the claim of the run's last block. -/
theorem second_alice_record_provenance :
    secondAliceRecord ∈ staleRecordLedger.records ∧
      (secondAliceRecord ∈ (Ledger.empty 1).records ∨ ∃ pre blk post,
        staleRecordChain = pre ++ blk :: post ∧
        secondAliceRecord.lastUpdateHeight = (Ledger.empty 1).height + pre.length ∧
        ∃ before t after, blk = before ++ t :: after ∧ ∃ br,
          ((Ledger.empty 1).applyBlocks .sample .acceptAll pre).WrittenBy .sample .acceptAll
            before t br secondAliceRecord) :=
  ⟨by decide, Ledger.applyBlocks_record_provenance _ _ (by decide)⟩

/-! ## The order of independent transactions -/

/-- The names a transaction commits are names its domain outputs claim. -/
theorem ChainTransaction.name_mem_outputNames {t : ChainTransaction}
    {x : OutputReference × ClaimDomainOutput × Int} (hx : x ∈ t.claims) :
    x.2.1.name ∈ t.toTxRun.outputNames := by
  simp only [ChainTransaction.claims, List.mem_filterMap, Option.map_eq_some'] at hx
  obtain ⟨⟨i, out⟩, hmem, c, hc, rfl⟩ := hx
  simp only [TxRun.outputNames, ChainTransaction.toTxRun, TxRun.ofTrx, List.mem_map,
    List.mem_filterMap, List.mem_append]
  exact ⟨c, ⟨.output out, .inr ⟨out, List.snd_mem_of_mem_enum hmem, rfl⟩, hc⟩, rfl⟩

/-- A name's record after commits depends only on its record and the height before them. -/
theorem Ledger.record?_commitClaims_congr {l₁ l₂ : Ledger} {n : String}
    (h : l₁.record? n = l₂.record? n) (hh : l₁.height = l₂.height)
    (cs : List (OutputReference × ClaimDomainOutput × Int)) :
    (l₁.commitClaims cs).record? n = (l₂.commitClaims cs).record? n := by
  induction cs generalizing l₁ l₂ with
  | nil => exact h
  | cons x cs ih =>
    obtain ⟨ref, c, amount⟩ := x
    refine ih ?_ hh
    by_cases hc : c.name = n
    · subst hc
      rw [Ledger.record?_commitClaim, Ledger.record?_commitClaim, hh]
    · rw [Ledger.record?_commitClaim_of_ne _ _ _ _ hc, Ledger.record?_commitClaim_of_ne _ _ _ _ hc,
        h]

/-- A name's record after commits depends only on the commits of that name. -/
theorem Ledger.record?_commitClaims_filter (l : Ledger) (n : String)
    (cs : List (OutputReference × ClaimDomainOutput × Int)) :
    (l.commitClaims cs).record? n = (l.commitClaims (cs.filter (·.2.1.name == n))).record? n := by
  induction cs generalizing l with
  | nil => rfl
  | cons x cs ih =>
    obtain ⟨ref, c, amount⟩ := x
    by_cases hc : c.name = n
    · simp only [List.filter_cons, hc, beq_self_eq_true, if_true, Ledger.commitClaims_cons]
      exact ih _
    · simp only [List.filter_cons, hc, beq_iff_eq, if_false, Ledger.commitClaims_cons]
      exact (ih _).trans (Ledger.record?_commitClaims_congr
        (Ledger.record?_commitClaim_of_ne _ _ _ _ hc) rfl _)

/-- A transaction commits no claim of a name its domain outputs do not claim. -/
theorem ChainTransaction.claims_filter_eq_nil {t : ChainTransaction} {n : String}
    (hn : n ∉ t.toTxRun.outputNames) : t.claims.filter (·.2.1.name == n) = [] :=
  List.filter_eq_nil_iff.2 fun _ hx hname =>
    hn (beq_iff_eq.1 hname ▸ ChainTransaction.name_mem_outputNames hx)

section Independent

variable (P : DnsPolicy) (g : GenericValidator) (l : Ledger) {blk : List ChainTransaction}
  {n : String}

/-- A name's record after a block depends only on the claims of that name its accepted
transactions commit. -/
theorem Ledger.record?_applyBlock_eq_filter :
    (l.applyBlock P g blk).record? n =
      (l.commitClaims ((acceptedTransactions (l.dnsDb P) g blk createBlockState).flatMap
        fun t => t.claims.filter (·.2.1.name == n))).record? n := by
  rw [Ledger.record?_applyBlock_eq, Ledger.record?_commitClaims_filter, List.filter_flatMap]

/-- A block in which no transaction claims a name leaves the name's record alone. -/
theorem Ledger.record?_applyBlock_of_unclaimed (hn : ∀ t ∈ blk, n ∉ t.toTxRun.outputNames) :
    (l.applyBlock P g blk).record? n = l.record? n := by
  rw [Ledger.record?_applyBlock_eq_filter, List.flatMap_eq_nil_iff.2 fun t ht =>
    ChainTransaction.claims_filter_eq_nil (hn t ((acceptedTransactions_sublist _ _ _ _).subset ht))]
  rfl

/-- Among transactions claiming pairwise disjoint names, the claims of a name `n` that `t`
claims come from `t` alone, whichever transactions are kept. -/
theorem flatMap_claims_filter_of_mem
    (hind : blk.Pairwise fun t₁ t₂ => t₁.toTxRun.outputNames.Disjoint t₂.toTxRun.outputNames)
    {t : ChainTransaction} (ht : t ∈ blk) (hn : n ∈ t.toTxRun.outputNames)
    (p : ChainTransaction → Bool) :
    (blk.filter p).flatMap (fun t' => t'.claims.filter (·.2.1.name == n)) =
      ([t].filter p).flatMap (fun t' => t'.claims.filter (·.2.1.name == n)) := by
  induction blk with
  | nil => cases ht
  | cons t₀ blk ih =>
    obtain ⟨hfirst, hrest⟩ := List.pairwise_cons.1 hind
    rcases List.mem_cons.1 ht with rfl | ht
    · -- no later transaction claims `n`
      have hnil : (blk.filter p).flatMap (fun t' => t'.claims.filter (·.2.1.name == n)) = [] :=
        List.flatMap_eq_nil_iff.2 fun t' ht' => ChainTransaction.claims_filter_eq_nil
          fun hn' => hfirst t' (List.mem_filter.1 ht').1 hn hn'
      cases hp : p t <;> simp [List.filter_cons, hp, hnil]
    · -- the first transaction does not claim `n`
      have hnil := ChainTransaction.claims_filter_eq_nil fun hn' => hfirst t ht hn' hn
      rw [← ih hrest ht]
      cases hp : p t₀ <;> simp [List.filter_cons, hp, hnil]

/-- In a block whose transactions claim pairwise disjoint names, a name a transaction claims
gets the record that transaction would write as a block of its own. -/
theorem Ledger.record?_applyBlock_of_mem_outputNames
    (hind : blk.Pairwise fun t₁ t₂ => t₁.toTxRun.outputNames.Disjoint t₂.toTxRun.outputNames)
    {t : ChainTransaction} (ht : t ∈ blk) (hn : n ∈ t.toTxRun.outputNames) :
    (l.applyBlock P g blk).record? n = (l.applyBlock P g [t]).record? n := by
  have hloc := Ledger.dnsDb_poolLocal P l
  rw [Ledger.record?_applyBlock_eq_filter, Ledger.record?_applyBlock_eq_filter,
    acceptedTransactions_of_pairwise_disjoint hloc hind,
    acceptedTransactions_of_pairwise_disjoint hloc (List.pairwise_singleton _ t),
    flatMap_claims_filter_of_mem hind ht hn]

/-- **The order of independent transactions does not matter.** On the spec's ledger, in a
block whose transactions claim pairwise disjoint names: each transaction is accepted exactly
when it is accepted alone from the block's fresh state; a name a transaction claims gets the
record that transaction writes as a block of its own, and a name none claims keeps its
record; so every reordering of the block leaves every name with the same record. -/
theorem Ledger.applyBlock_perm {blk' : List ChainTransaction} (hperm : blk.Perm blk')
    (hind : blk.Pairwise fun t₁ t₂ => t₁.toTxRun.outputNames.Disjoint t₂.toTxRun.outputNames) :
    acceptedTransactions (l.dnsDb P) g blk createBlockState =
        blk.filter (fun t => (runDispatches (l.dnsDb P) g t.trx t.toTxRun.dispatches .init
          createBlockState).1.toBool) ∧
      (∀ t ∈ blk, ∀ n ∈ t.toTxRun.outputNames,
        (l.applyBlock P g blk).record? n = (l.applyBlock P g [t]).record? n) ∧
      (∀ n, (∀ t ∈ blk, n ∉ t.toTxRun.outputNames) →
        (l.applyBlock P g blk).record? n = l.record? n) ∧
      ∀ n, (l.applyBlock P g blk).record? n = (l.applyBlock P g blk').record? n := by
  have hind' := (hperm.pairwise_iff List.disjoint_comm.1).1 hind
  refine ⟨acceptedTransactions_of_pairwise_disjoint (Ledger.dnsDb_poolLocal P l) hind _,
    fun t ht n hn => Ledger.record?_applyBlock_of_mem_outputNames P g l hind ht hn,
    fun n hn => Ledger.record?_applyBlock_of_unclaimed P g l hn, fun n => ?_⟩
  by_cases hclaimed : ∃ t ∈ blk, n ∈ t.toTxRun.outputNames
  · obtain ⟨t, ht, hn⟩ := hclaimed
    rw [Ledger.record?_applyBlock_of_mem_outputNames P g l hind ht hn,
      Ledger.record?_applyBlock_of_mem_outputNames P g l hind' (hperm.subset ht) hn]
  · push_neg at hclaimed
    rw [Ledger.record?_applyBlock_of_unclaimed P g l hclaimed,
      Ledger.record?_applyBlock_of_unclaimed P g l fun t ht => hclaimed t (hperm.symm.subset ht)]

end Independent

/-- Key 3's fresh claim of `"carol"` (hash 5). -/
def carolChainClaim : ChainTransaction :=
  ⟨5, [], ⟨[⟨100, 0, .domain ⟨"carol", "", .possiblyInAuction, ⟨3⟩⟩⟩], [⟨3⟩]⟩⟩

/-- Key 1's claim of `"alice"` and key 3's claim of `"carol"` in one block. -/
def aliceCarolBlock : List ChainTransaction :=
  [firstAliceClaim, carolChainClaim]

/-- Both claims are accepted as they are alone, each name gets its claim's record, and the
block in the other order leaves the same records. -/
theorem independent_claims_any_order :
    acceptedTransactions ((Ledger.empty 1).dnsDb .sample) .acceptAll aliceCarolBlock
        createBlockState =
        aliceCarolBlock.filter (fun t =>
          (runDispatches ((Ledger.empty 1).dnsDb .sample) .acceptAll t.trx t.toTxRun.dispatches
            .init createBlockState).1.toBool) ∧
      (∀ t ∈ aliceCarolBlock, ∀ n ∈ t.toTxRun.outputNames,
        ((Ledger.empty 1).applyBlock .sample .acceptAll aliceCarolBlock).record? n =
          ((Ledger.empty 1).applyBlock .sample .acceptAll [t]).record? n) ∧
      (∀ n, (∀ t ∈ aliceCarolBlock, n ∉ t.toTxRun.outputNames) →
        ((Ledger.empty 1).applyBlock .sample .acceptAll aliceCarolBlock).record? n =
          (Ledger.empty 1).record? n) ∧
      ∀ n, ((Ledger.empty 1).applyBlock .sample .acceptAll aliceCarolBlock).record? n =
        ((Ledger.empty 1).applyBlock .sample .acceptAll
          [carolChainClaim, firstAliceClaim]).record? n :=
  Ledger.applyBlock_perm .sample .acceptAll (.empty 1) (List.Perm.swap _ _ _)
    (List.pairwise_pair.2 fun m h₁ h₂ => by
      simp only [carolChainClaim, firstAliceClaim, ChainTransaction.toTxRun, TxRun.outputNames,
        TxRun.ofTrx, List.map, List.filterMap, List.nil_append, Dispatch.outputClaim?,
        TrxOutput.domainClaim?, List.mem_singleton] at h₁ h₂
      exact absurd (h₁.symm.trans h₂) (by decide))

end PtsDns