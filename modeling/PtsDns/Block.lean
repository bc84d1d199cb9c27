/-
# One block: transactions against a shared name pool

`create_block_state` gives each candidate block one name pool, and its transactions are
validated in order against it, each on a fresh `dns_tx_evaluation_state`. `validateBlock`
threads the pool through a block whatever each verdict is, as the shared pointer does in
the source; `blockClaims` is the block's claim log, the logs of its transactions in order.

* `validateBlock_namePool` : a block leaves its starting pool followed by the names of all
  the domain outputs it accepted, rejected transactions included;
* `blockClaims_poolsGrow` : every logged output was checked against a pool holding the
  names of all outputs logged before it in the block;
* `name_exclusive_in_block` : once a name is claimed in a block, only the update branch
  can accept it again, so a block accepts at most one fresh claim or bid per name;
* `independent_transactions_commute` : transactions claiming disjoint names get the same
  verdicts in either order and leave the same pool up to order;
* `validateBlock_of_pairwise_disjoint` : in a block whose transactions claim pairwise
  disjoint names, each transaction gets the verdict it gets alone against the starting pool;
* `validateBlock_accepted_alone` : every transaction a block accepts is accepted alone
  against the starting pool, so earlier transactions can only get a later one rejected.
-/
import PtsDns.Transaction

namespace PtsDns

/-! ## Pools along a log -/

/-- Every event of a log was checked against a pool that holds `pool` and the names of the
events logged before it. -/
def PoolsGrow (pool : List String) (log : List ClaimEvent) : Prop :=
  log.Pairwise (fun e₁ e₂ => e₁.output.name ∈ e₂.namePool) ∧
    ∀ e ∈ log, pool ⊆ e.namePool

theorem PoolsGrow.nil (pool : List String) : PoolsGrow pool [] := by
  simp [PoolsGrow]

/-- Logs whose pools grow compose: the second is checked against the first's names. -/
theorem PoolsGrow.append {p : List String} {l₁ l₂ : List ClaimEvent} (h₁ : PoolsGrow p l₁)
    (h₂ : PoolsGrow (p ++ claimNames l₁) l₂) : PoolsGrow p (l₁ ++ l₂) := by
  refine ⟨List.pairwise_append.2 ⟨h₁.1, h₂.1, fun e₁ he₁ e₂ he₂ => ?_⟩, ?_⟩
  · exact h₂.2 e₂ he₂ (List.mem_append_right _ (List.mem_map_of_mem _ he₁))
  · intro e he
    rcases List.mem_append.1 he with he | he
    · exact h₁.2 e he
    · exact fun n hn => h₂.2 e he (List.mem_append_left _ hn)

section Run

variable {db : DnsDb} {g : GenericValidator} {trx : SignedTransaction}

/-- **Pools grow along a transaction's log.** -/
theorem acceptedClaims_poolsGrow (ds : List Dispatch) (s : DnsTxEvaluationState)
    (b : DnsBlockEvaluationState) :
    PoolsGrow b.namePool (acceptedClaims db g trx ds s b) := by
  induction ds generalizing s b with
  | nil => exact PoolsGrow.nil _
  | cons d ds ih =>
    cases hd : dispatch db g trx d s b with
    | error => simp only [acceptedClaims, hd]; exact PoolsGrow.nil _
    | ok r =>
      obtain ⟨s₁, b₁⟩ := r
      rw [acceptedClaims_cons_of_ok hd]
      refine PoolsGrow.append ?_ ?_
      · cases he : d.claimEvent? s b with
        | none => exact PoolsGrow.nil _
        | some e => simp [PoolsGrow, (dispatch_outputRule hd he).2.1]
      · rw [← dispatch_namePool hd]
        exact ih s₁ b₁

/-- The names a transaction logs are names of domain outputs it dispatches. -/
theorem mem_outputClaims_of_mem_acceptedClaims {ds : List Dispatch}
    {s : DnsTxEvaluationState} {b : DnsBlockEvaluationState} {e : ClaimEvent}
    (he : e ∈ acceptedClaims db g trx ds s b) :
    e.output ∈ ds.filterMap Dispatch.outputClaim? := by
  induction ds generalizing s b with
  | nil => simp [acceptedClaims] at he
  | cons d ds ih =>
    cases hd : dispatch db g trx d s b with
    | error => simp [acceptedClaims, hd] at he
    | ok r =>
      obtain ⟨s₁, b₁⟩ := r
      rw [acceptedClaims_cons_of_ok hd, List.mem_append, Option.mem_toList] at he
      rw [List.filterMap_cons]
      rcases he with he | he
      · cases d with
        | input inp => simp [Dispatch.claimEvent?] at he
        | output out =>
          cases hc : out.domainClaim? <;> simp [Dispatch.claimEvent?, hc] at he
          subst he
          simp [Dispatch.outputClaim?, hc]
      · cases d.outputClaim? <;> simp [ih he]

end Run

/-! ## Blocks -/

/-- One transaction of a block, as the enclosing validator runs it: the signed transaction
and the order in which its inputs and outputs are dispatched. -/
structure TxRun where
  trx : SignedTransaction
  dispatches : List Dispatch

/-- A transaction dispatched in the spec's order, inputs first, as `evaluate` runs it. -/
def TxRun.ofTrx (trx : SignedTransaction) (inputs : List MetaTrxInput) : TxRun :=
  ⟨trx, inputs.map .input ++ trx.outputs.map .output⟩

/-- The names of the domain outputs a transaction dispatches. -/
def TxRun.outputNames (t : TxRun) : List String :=
  (t.dispatches.filterMap Dispatch.outputClaim?).map (·.name)

/-- The transactions of a block validated in order against one block state, each on a fresh
`dns_tx_evaluation_state`: their verdicts, and the block state left behind. -/
def validateBlock (db : DnsDb) (g : GenericValidator) :
    List TxRun → DnsBlockEvaluationState →
      List (Except String DnsTxEvaluationState) × DnsBlockEvaluationState
  | [], b => ([], b)
  | t :: ts, b =>
    let r := runDispatches db g t.trx t.dispatches .init b
    let rest := validateBlock db g ts r.2
    (r.1 :: rest.1, rest.2)

/-- The block's claim log: each transaction's log, in order. -/
def blockClaims (db : DnsDb) (g : GenericValidator) :
    List TxRun → DnsBlockEvaluationState → List ClaimEvent
  | [], _ => []
  | t :: ts, b =>
    acceptedClaims db g t.trx t.dispatches .init b ++
      blockClaims db g ts (runDispatches db g t.trx t.dispatches .init b).2

section Block

variable {db : DnsDb} {g : GenericValidator}

/-- **Pools grow along a block's log.** -/
theorem blockClaims_poolsGrow (ts : List TxRun) (b : DnsBlockEvaluationState) :
    PoolsGrow b.namePool (blockClaims db g ts b) := by
  induction ts generalizing b with
  | nil => exact PoolsGrow.nil _
  | cons t ts ih =>
    refine PoolsGrow.append (acceptedClaims_poolsGrow _ _ _) ?_
    rw [← runDispatches_namePool]
    exact ih _

/-- **The pool a block leaves.** Whatever the verdicts, a block leaves the pool it started
from followed by the names of every domain output its transactions accepted, in order, by
accepted and rejected transactions alike. -/
theorem validateBlock_namePool (ts : List TxRun) (b : DnsBlockEvaluationState) :
    (validateBlock db g ts b).2.namePool =
      b.namePool ++ claimNames (blockClaims db g ts b) := by
  induction ts generalizing b with
  | nil => simp [validateBlock, blockClaims]
  | cons t ts ih =>
    simp only [validateBlock, blockClaims, ih, runDispatches_namePool, claimNames_append,
      List.append_assoc]

/-- Every output in a block's log passed the output rule in its own transaction. -/
theorem blockClaims_outputRule {ts : List TxRun} {b : DnsBlockEvaluationState}
    {e : ClaimEvent} (he : e ∈ blockClaims db g ts b) :
    ∃ trx br s', OutputRule db trx e.state e.output e.amount (e.status db) br s' := by
  induction ts generalizing b with
  | nil => simp [blockClaims] at he
  | cons t ts ih =>
    rcases List.mem_append.1 he with he | he
    · obtain ⟨-, -, br, s', hr⟩ := acceptedClaims_outputRule he
      exact ⟨t.trx, br, s', hr⟩
    · exact ih he

end Block

/-! ## Name exclusivity -/

/-- **Name exclusivity within a block.** Under the pool contract of the oracle, once a
block has accepted an output for a name, a later output for the same name is accepted only
on the update branch: its transaction spent a domain input, and the auction of the name's
current record is closed. So a block accepts at most one fresh claim or bid per name. -/
theorem name_exclusive_in_block (db : DnsDb) (g : GenericValidator)
    (hdb : db.PoolUnavailable) (ts : List TxRun) :
    (blockClaims db g ts createBlockState).Pairwise (fun e₁ e₂ =>
      e₁.output.name = e₂.output.name →
        e₂.state.seenDomainInput = true ∧ db.auctionIsClosed (e₂.status db).prevTxRef = true) ∧
    (((blockClaims db g ts createBlockState).filter (·.branch db != .update)).map
      (·.output.name)).Nodup := by
  have hupdate : ∀ e₁ ∈ blockClaims db g ts createBlockState,
      ∀ e₂ ∈ blockClaims db g ts createBlockState,
      e₁.output.name ∈ e₂.namePool → e₁.output.name = e₂.output.name →
        e₂.branch db = .update := by
    intro e₁ _ e₂ he₂ hmem hname
    obtain ⟨trx, br, s', hr⟩ := blockClaims_outputRule he₂
    have hunavail : (e₂.status db).available = false := hdb _ _ (hname ▸ hmem)
    have hbr : br = .update := by
      by_contra hne
      simp [hr.available hne] at hunavail
    rw [ClaimEvent.branch, ← hr.branch_eq, hbr]
  have hpw := (@blockClaims_poolsGrow db g ts createBlockState).1
  refine ⟨hpw.imp_of_mem fun he₁ he₂ hmem hname => ?_, ?_⟩
  · exact claimBranch_eq_update.1 (hupdate _ he₁ _ he₂ hmem hname)
  · rw [List.Nodup, List.pairwise_map]
    refine (hpw.filter _).imp_of_mem fun he₁ he₂ hmem hname => ?_
    rw [List.mem_filter] at he₁ he₂
    simp [hupdate _ he₁.1 _ he₂.1 hmem hname] at he₂

/-- A block on the ledger where key 1's `"alice"` is settled: keys 3 and 4 both claim
`"carol"` afresh, and key 1 updates `"alice"` twice, each time spending its record. -/
def claimsAndUpdatesBlock : List TxRun :=
  [.ofTrx ⟨[⟨100, 0, .domain ⟨"carol", "", .possiblyInAuction, ⟨3⟩⟩⟩], [⟨3⟩]⟩ [],
    .ofTrx ⟨[⟨150, 0, .domain ⟨"carol", "", .possiblyInAuction, ⟨4⟩⟩⟩], [⟨4⟩]⟩ [],
    .ofTrx ⟨[⟨100, 0, .domain ⟨"alice", "www", .notInAuction, ⟨1⟩⟩⟩], [⟨1⟩]⟩ [aliceRecordInput],
    .ofTrx ⟨[⟨100, 0, .domain ⟨"alice", "ftp", .notInAuction, ⟨1⟩⟩⟩], [⟨1⟩]⟩ [aliceRecordInput]]

/-- Name exclusivity on the spec's ledger, for a block that logs two updates of one name. -/
theorem name_exclusive_in_block_sample :
    (aliceLedger.dnsDb .sample).PoolUnavailable ∧
      (blockClaims (aliceLedger.dnsDb .sample) .acceptAll claimsAndUpdatesBlock
          createBlockState).Pairwise (fun e₁ e₂ =>
        e₁.output.name = e₂.output.name →
          e₂.state.seenDomainInput = true ∧
            (aliceLedger.dnsDb .sample).auctionIsClosed
              (e₂.status (aliceLedger.dnsDb .sample)).prevTxRef = true) ∧
      (((blockClaims (aliceLedger.dnsDb .sample) .acceptAll claimsAndUpdatesBlock
          createBlockState).filter
          (·.branch (aliceLedger.dnsDb .sample) != .update)).map (·.output.name)).Nodup :=
  ⟨Ledger.dnsDb_poolUnavailable _ _,
    name_exclusive_in_block _ _ (Ledger.dnsDb_poolUnavailable _ _) claimsAndUpdatesBlock⟩

/-- The block logs key 3's claim of `"carol"` and both updates of `"alice"`; key 4's claim
of `"carol"` is turned away. -/
example :
    (blockClaims (aliceLedger.dnsDb .sample) .acceptAll claimsAndUpdatesBlock
        createBlockState).map (fun e => (e.output.name, e.branch (aliceLedger.dnsDb .sample))) =
      [("carol", .freshClaim), ("alice", .update), ("alice", .update)] := by
  decide

/-! ## Independent transactions commute -/

section Commute

variable {db : DnsDb} {g : GenericValidator} {trx : SignedTransaction}

/-- The output rule reads the pool only through what `name_is_available` reports. -/
theorem validateDomainOutput_congr_pool {c : ClaimDomainOutput} {A : Int} {p q : List String}
    {s : DnsTxEvaluationState} (h : db.nameIsAvailable c.name p = db.nameIsAvailable c.name q) :
    validateDomainOutput db trx c A p s = validateDomainOutput db trx c A q s := by
  simp only [validateDomainOutput, h]

/-- The names a dispatch logs depend on the dispatch alone. -/
theorem claimNames_claimEvent? (d : Dispatch) (s : DnsTxEvaluationState)
    (b : DnsBlockEvaluationState) :
    claimNames (d.claimEvent? s b).toList = (d.outputClaim?.map (·.name)).toList := by
  cases d with
  | input => rfl
  | output out =>
    cases hc : out.domainClaim? <;>
      simp [Dispatch.claimEvent?, Dispatch.outputClaim?, claimNames, hc]

/-- A dispatch reads the pool only at the name of the claim it makes, through the oracle. -/
theorem dispatch_congr_pool (hloc : db.PoolLocal) {d : Dispatch} {s : DnsTxEvaluationState}
    {b₁ b₂ : DnsBlockEvaluationState}
    (h : ∀ c, d.outputClaim? = some c →
      (c.name ∈ b₁.namePool ↔ c.name ∈ b₂.namePool)) :
    Prod.fst <$> dispatch db g trx d s b₁ = Prod.fst <$> dispatch db g trx d s b₂ := by
  cases d with
  | input inp => simp [dispatch, Functor.map_map]
  | output out =>
    cases hc : out.domainClaim? with
    | none => simp [dispatch, validateOutput, hc, Functor.map_map]
    | some c =>
      have hpool : validateDomainOutput db trx c out.amount b₁.namePool s =
          validateDomainOutput db trx c out.amount b₂.namePool s :=
        validateDomainOutput_congr_pool (hloc c.name _ _ (h c hc))
      simp [dispatch, validateOutput, hc, Functor.map_map, hpool]

/-- **Local agreement.** Two pools that agree on the names of the domain outputs a run
dispatches give it the same verdict and the same logged names. -/
theorem runDispatches_congr_pool (hloc : db.PoolLocal) {ds : List Dispatch}
    {s : DnsTxEvaluationState} {b₁ b₂ : DnsBlockEvaluationState}
    (h : ∀ c ∈ ds.filterMap Dispatch.outputClaim?,
      c.name ∈ b₁.namePool ↔ c.name ∈ b₂.namePool) :
    (runDispatches db g trx ds s b₁).1 = (runDispatches db g trx ds s b₂).1 ∧
      claimNames (acceptedClaims db g trx ds s b₁) =
        claimNames (acceptedClaims db g trx ds s b₂) := by
  induction ds generalizing s b₁ b₂ with
  | nil => exact ⟨rfl, rfl⟩
  | cons d ds ih =>
    have hd : Prod.fst <$> dispatch db g trx d s b₁ = Prod.fst <$> dispatch db g trx d s b₂ :=
      dispatch_congr_pool hloc fun c hc =>
        h c (by rw [List.filterMap_cons, hc]; exact List.mem_cons_self _ _)
    simp only [runDispatches, acceptedClaims]
    cases h₁ : dispatch db g trx d s b₁ <;> cases h₂ : dispatch db g trx d s b₂ <;>
      simp only [h₁, h₂, Functor.map, Except.map, Except.error.injEq, Except.ok.injEq,
        reduceCtorEq] at hd
    · exact ⟨congrArg Except.error hd, rfl⟩
    · rename_i r₁ r₂
      obtain ⟨s₁, b₁'⟩ := r₁
      obtain ⟨s₂, b₂'⟩ := r₂
      obtain rfl : s₁ = s₂ := hd
      have hrest := @ih s₁ b₁' b₂' fun c hc => by
        rw [dispatch_namePool h₁, dispatch_namePool h₂, claimNames_claimEvent?,
          claimNames_claimEvent?, List.mem_append, List.mem_append,
          h c (((List.sublist_cons_self d ds).filterMap _).subset hc)]
      simp only [hrest.1, claimNames_append, claimNames_claimEvent?, hrest.2, and_self]

/-- The names a transaction logs are names of its domain outputs. -/
theorem claimNames_subset_outputNames (t : TxRun) (s : DnsTxEvaluationState)
    (b : DnsBlockEvaluationState) :
    claimNames (acceptedClaims db g t.trx t.dispatches s b) ⊆ t.outputNames := by
  intro n hn
  obtain ⟨e, he, rfl⟩ := List.mem_map.1 hn
  exact List.mem_map_of_mem _ (mem_outputClaims_of_mem_acceptedClaims he)

/-- Running a transaction after another that claims disjoint names: the same verdict and
the same logged names as running it first. -/
theorem runDispatches_after_disjoint (hloc : db.PoolLocal) {t₁ t₂ : TxRun}
    (hdisj : t₁.outputNames.Disjoint t₂.outputNames) (b : DnsBlockEvaluationState) :
    let b₁ := (runDispatches db g t₁.trx t₁.dispatches .init b).2
    (runDispatches db g t₂.trx t₂.dispatches .init b₁).1 =
        (runDispatches db g t₂.trx t₂.dispatches .init b).1 ∧
      claimNames (acceptedClaims db g t₂.trx t₂.dispatches .init b₁) =
        claimNames (acceptedClaims db g t₂.trx t₂.dispatches .init b) := by
  refine runDispatches_congr_pool hloc fun c hc => ?_
  rw [runDispatches_namePool, List.mem_append, or_iff_left_iff_imp]
  intro hn
  exact (hdisj (claimNames_subset_outputNames t₁ _ _ hn) (List.mem_map_of_mem (·.name) hc)).elim

end Commute

/-- **Independent transactions commute.** Under the locality contract of the oracle, two
transactions whose domain outputs claim disjoint sets of names get the same verdicts in
either order, and leave name pools that are permutations of each other. -/
theorem independent_transactions_commute (db : DnsDb) (g : GenericValidator)
    (hloc : db.PoolLocal) (t₁ t₂ : TxRun) (hdisj : t₁.outputNames.Disjoint t₂.outputNames)
    (b : DnsBlockEvaluationState) :
    (validateBlock db g [t₁, t₂] b).1 = (validateBlock db g [t₂, t₁] b).1.reverse ∧
      (validateBlock db g [t₁, t₂] b).2.namePool.Perm
        (validateBlock db g [t₂, t₁] b).2.namePool := by
  obtain ⟨h₂₁, n₂₁⟩ := runDispatches_after_disjoint (g := g) hloc hdisj b
  obtain ⟨h₁₂, n₁₂⟩ := runDispatches_after_disjoint (g := g) hloc
    (fun _ h₁ h₂ => hdisj h₂ h₁) b
  simp only [validateBlock, List.reverse_cons, List.reverse_nil, List.nil_append,
    List.singleton_append, h₂₁, h₁₂, runDispatches_namePool, n₂₁, n₁₂, List.append_assoc,
    true_and]
  exact List.perm_append_comm.append_left _

/-- A fresh claim of `"carol"` by key 1. -/
def carolClaim : TxRun :=
  .ofTrx ⟨[⟨100, 0, .domain ⟨"carol", "", .possiblyInAuction, ⟨1⟩⟩⟩], [⟨1⟩]⟩ []

/-- A fresh claim of `"dave"` by key 2. -/
def daveClaim : TxRun :=
  .ofTrx ⟨[⟨100, 0, .domain ⟨"dave", "", .possiblyInAuction, ⟨2⟩⟩⟩], [⟨2⟩]⟩ []

/-- Commutation on the spec's ledger, for fresh claims of two different names. -/
theorem independent_transactions_commute_sample :
    ((Ledger.empty 1).dnsDb .sample).PoolLocal ∧
      carolClaim.outputNames.Disjoint daveClaim.outputNames ∧
      (validateBlock ((Ledger.empty 1).dnsDb .sample) .acceptAll [carolClaim, daveClaim]
          createBlockState).1 =
        (validateBlock ((Ledger.empty 1).dnsDb .sample) .acceptAll [daveClaim, carolClaim]
          createBlockState).1.reverse ∧
      (validateBlock ((Ledger.empty 1).dnsDb .sample) .acceptAll [carolClaim, daveClaim]
          createBlockState).2.namePool.Perm
        (validateBlock ((Ledger.empty 1).dnsDb .sample) .acceptAll [daveClaim, carolClaim]
          createBlockState).2.namePool :=
  have hdisj : carolClaim.outputNames.Disjoint daveClaim.outputNames := by
    intro n h₁ h₂
    rw [show carolClaim.outputNames = ["carol"] from rfl, List.mem_singleton] at h₁
    rw [show daveClaim.outputNames = ["dave"] from rfl, List.mem_singleton, h₁] at h₂
    exact absurd h₂ (by decide)
  ⟨Ledger.dnsDb_poolLocal _ _, hdisj,
    independent_transactions_commute _ _ (Ledger.dnsDb_poolLocal _ _) carolClaim daveClaim
      hdisj createBlockState⟩

/-! ## Blocks of independent transactions -/

section Independent

variable {db : DnsDb} {g : GenericValidator}

/-- A transaction against a pool extended by names none of its domain outputs claims: the
same verdict and the same logged names as against the pool alone. -/
theorem runDispatches_append_pool (hloc : db.PoolLocal) (t : TxRun)
    (b : DnsBlockEvaluationState) {extra : List String}
    (h : ∀ n ∈ extra, n ∉ t.outputNames) :
    (runDispatches db g t.trx t.dispatches .init ⟨b.namePool ++ extra⟩).1 =
        (runDispatches db g t.trx t.dispatches .init b).1 ∧
      claimNames (acceptedClaims db g t.trx t.dispatches .init ⟨b.namePool ++ extra⟩) =
        claimNames (acceptedClaims db g t.trx t.dispatches .init b) :=
  runDispatches_congr_pool hloc fun c hc => by
    rw [List.mem_append, or_iff_left_iff_imp]
    exact fun hn => (h _ hn (List.mem_map_of_mem _ hc)).elim

/-- Against a pool extended by names no transaction of the block claims, a block of
independent transactions gives each the verdict it gets alone against the pool, and leaves
the extended pool followed by the names each would log alone, in block order. -/
theorem validateBlock_append_pool (hloc : db.PoolLocal) (ts : List TxRun)
    (hind : ts.Pairwise fun t₁ t₂ => t₁.outputNames.Disjoint t₂.outputNames)
    (b : DnsBlockEvaluationState) (extra : List String)
    (hextra : ∀ t ∈ ts, ∀ n ∈ extra, n ∉ t.outputNames) :
    (validateBlock db g ts ⟨b.namePool ++ extra⟩).1 =
        ts.map (fun t => (runDispatches db g t.trx t.dispatches .init b).1) ∧
      (validateBlock db g ts ⟨b.namePool ++ extra⟩).2.namePool = b.namePool ++ extra ++
        (ts.map fun t => claimNames (acceptedClaims db g t.trx t.dispatches .init b)).flatten := by
  induction ts generalizing extra with
  | nil => simp [validateBlock]
  | cons t ts ih =>
    obtain ⟨hsep, hrest⟩ := List.pairwise_cons.1 hind
    obtain ⟨hv, hn⟩ :=
      runDispatches_append_pool (g := g) hloc t b (hextra t (List.mem_cons_self _ _))
    -- the head leaves the pool extended by the names it logs alone
    have hb₁ : (runDispatches db g t.trx t.dispatches .init ⟨b.namePool ++ extra⟩).2 =
        ⟨b.namePool ++ (extra ++ claimNames (acceptedClaims db g t.trx t.dispatches .init b))⟩ := by
      rw [← hn, ← List.append_assoc]
      exact congrArg DnsBlockEvaluationState.mk (runDispatches_namePool _ _ _)
    obtain ⟨ih₁, ih₂⟩ :=
      ih hrest (extra ++ claimNames (acceptedClaims db g t.trx t.dispatches .init b))
      fun t' ht' n hn' => (List.mem_append.1 hn').elim (hextra t' (List.mem_cons_of_mem _ ht') n)
        fun hc => hsep t' ht' (claimNames_subset_outputNames t _ _ hc)
    refine ⟨?_, ?_⟩
    · simp only [validateBlock, List.map_cons, hv, hb₁, ih₁]
    · simp only [validateBlock, List.map_cons, List.flatten_cons, hb₁, ih₂, List.append_assoc]

/-- **A block of independent transactions validates as if in parallel.** Under the locality
contract of the oracle, when no two transactions of a block claim a common name, each gets
the verdict it gets alone against the block's starting pool, and the block leaves that pool
followed by the names each would log alone, in block order. -/
theorem validateBlock_of_pairwise_disjoint (hloc : db.PoolLocal) (ts : List TxRun)
    (hind : ts.Pairwise fun t₁ t₂ => t₁.outputNames.Disjoint t₂.outputNames)
    (b : DnsBlockEvaluationState) :
    (validateBlock db g ts b).1 =
        ts.map (fun t => (runDispatches db g t.trx t.dispatches .init b).1) ∧
      (validateBlock db g ts b).2.namePool = b.namePool ++
        (ts.map fun t => claimNames (acceptedClaims db g t.trx t.dispatches .init b)).flatten := by
  simpa using validateBlock_append_pool hloc ts hind b [] (by simp)

end Independent

/-- Fresh claims of `"carol"` and `"dave"` in one block get the verdicts they get alone. -/
theorem validateBlock_of_pairwise_disjoint_sample :
    (validateBlock ((Ledger.empty 1).dnsDb .sample) .acceptAll [carolClaim, daveClaim]
        createBlockState).1 =
      [carolClaim, daveClaim].map (fun t => (runDispatches ((Ledger.empty 1).dnsDb .sample)
        .acceptAll t.trx t.dispatches .init createBlockState).1) ∧
    (validateBlock ((Ledger.empty 1).dnsDb .sample) .acceptAll [carolClaim, daveClaim]
        createBlockState).2.namePool = createBlockState.namePool ++
      ([carolClaim, daveClaim].map fun t => claimNames (acceptedClaims
        ((Ledger.empty 1).dnsDb .sample) .acceptAll t.trx t.dispatches .init
        createBlockState)).flatten :=
  validateBlock_of_pairwise_disjoint (Ledger.dnsDb_poolLocal _ _) _
    (List.pairwise_pair.2 fun n h₁ h₂ => by
      simp only [carolClaim, daveClaim, TxRun.outputNames, TxRun.ofTrx, List.map,
        List.filterMap, List.nil_append, Dispatch.outputClaim?, TrxOutput.domainClaim?,
        List.mem_singleton] at h₁ h₂
      exact absurd (h₁.symm.trans h₂) (by decide))
    _

/-! ## Earlier transactions never help a later one -/

section Antitone

variable {db : DnsDb} {g : GenericValidator} {trx : SignedTransaction}

/-- A dispatch accepted against a pool is accepted against any smaller pool, with the same
new state, leaving a pool that is still smaller. -/
theorem dispatch_of_subset (hmono : db.PoolAntitone) {d : Dispatch}
    {s s' : DnsTxEvaluationState} {b₁ b₂ b₂' : DnsBlockEvaluationState}
    (hsub : b₁.namePool ⊆ b₂.namePool) (h : dispatch db g trx d s b₂ = .ok (s', b₂')) :
    ∃ b₁', dispatch db g trx d s b₁ = .ok (s', b₁') ∧ b₁'.namePool ⊆ b₂'.namePool := by
  cases d with
  | input inp =>
    simp only [dispatch, Except.map_eq_ok, Prod.mk.injEq] at h ⊢
    obtain ⟨_, hx, rfl, rfl⟩ := h
    exact ⟨b₁, ⟨_, hx, rfl, rfl⟩, hsub⟩
  | output out =>
    cases hc : out.domainClaim? with
    | none =>
      obtain ⟨base, hbase, rfl, rfl⟩ := (validateOutput_eq_ok_of_none hc).1 h
      exact ⟨b₁, (validateOutput_eq_ok_of_none hc).2 ⟨base, hbase, rfl, rfl⟩, hsub⟩
    | some c =>
      obtain ⟨hv, rfl⟩ := (validateOutput_eq_ok_of_domainClaim hc).1 h
      obtain ⟨hout, hwf, br, hr⟩ := validateDomainOutput_eq_ok_iff.1 hv
      obtain ⟨hnew, href, havail⟩ := hmono c.name _ _ hsub
      refine ⟨⟨b₁.namePool ++ [c.name]⟩, (validateOutput_eq_ok_of_domainClaim hc).2
        ⟨validateDomainOutput_eq_ok_iff.2 ⟨hout, hwf, br, hr.mono_status hnew href havail⟩,
          rfl⟩, ?_⟩
      exact List.append_subset.2
        ⟨fun _ hx => List.subset_append_left _ _ (hsub hx), List.subset_append_right _ _⟩

/-- A run accepted against a pool is accepted against any smaller pool, in the same state. -/
theorem runDispatches_of_subset (hmono : db.PoolAntitone) {ds : List Dispatch}
    {s s' : DnsTxEvaluationState} {b₁ b₂ : DnsBlockEvaluationState}
    (hsub : b₁.namePool ⊆ b₂.namePool) (h : (runDispatches db g trx ds s b₂).1 = .ok s') :
    (runDispatches db g trx ds s b₁).1 = .ok s' := by
  induction ds generalizing s b₁ b₂ with
  | nil => exact h
  | cons d ds ih =>
    obtain ⟨s₁, b₂', hd, hrest⟩ := runDispatches_cons_fst_eq_ok.1 h
    obtain ⟨b₁', hd', hsub'⟩ := dispatch_of_subset hmono hsub hd
    exact runDispatches_cons_fst_eq_ok.2 ⟨s₁, b₁', hd', ih hsub' hrest⟩

/-- **Earlier transactions never help a later one.** Under the monotonicity contract of the
oracle, every transaction a block accepts is accepted alone against the block's starting
pool, ending in the same state: what the transactions before it claimed can only get it
rejected. -/
theorem validateBlock_accepted_alone (hmono : db.PoolAntitone) (ts : List TxRun)
    (b : DnsBlockEvaluationState) (x : TxRun × Except String DnsTxEvaluationState)
    (hx : x ∈ ts.zip (validateBlock db g ts b).1) (s' : DnsTxEvaluationState)
    (hs' : x.2 = .ok s') :
    (runDispatches db g x.1.trx x.1.dispatches .init b).1 = .ok s' := by
  induction ts generalizing b with
  | nil => simp [validateBlock] at hx
  | cons t ts ih =>
    simp only [validateBlock, List.zip_cons_cons, List.mem_cons] at hx
    rcases hx with rfl | hx
    · exact hs'
    · refine runDispatches_of_subset hmono ?_ (ih _ hx)
      rw [runDispatches_namePool]
      exact List.subset_append_left _ _

end Antitone

/-- The claim of `"carol"`, accepted in a block after `"dave"`'s, is accepted alone. -/
theorem validateBlock_accepted_alone_sample :
    (runDispatches ((Ledger.empty 1).dnsDb .sample) .acceptAll carolClaim.trx
        carolClaim.dispatches .init createBlockState).1 =
      .ok { DnsTxEvaluationState.init with seenDomainOutput := true } :=
  validateBlock_accepted_alone (g := .acceptAll) (Ledger.dnsDb_poolAntitone .sample (.empty 1))
    [daveClaim, carolClaim]
    createBlockState (carolClaim, .ok { DnsTxEvaluationState.init with seenDomainOutput := true })
    (List.mem_cons_of_mem _ (List.mem_cons_self _ _)) _ rfl

end PtsDns
