/-
# One transaction: the dispatch loop and its claim log

The enclosing validator's `on_evaluate` (not in the source) sends each input of a
transaction to `validate_input` and each output to `validate_output`, against one
`dns_tx_evaluation_state` and the block's shared state, and stops at the first exception.
`runDispatches` is that loop over any order of dispatches, and `evaluate` fixes the spec's
order, inputs first. The block state is shared by reference, so a rejected transaction keeps
the name-pool pushes made before its failing call.

`acceptedClaims` lists the domain outputs a run accepts, each with the states it was checked
in. It follows the same recursion as `runDispatches` and is what the block-level results
are stated over.

* `runDispatches_namePool` : whatever the verdict, the pool after a run is the pool before
  it followed by the names of the accepted domain outputs;
* `acceptedClaims_outputRule` : every logged output was accepted by the decision table of
  the output rule, in the state and against the pool the log records;
* `runDispatches_inputClaims_le` : an accepted run dispatches at most one domain input and
  at most one domain output.
-/
import PtsDns.Validator
import PtsDns.Ledger

namespace PtsDns

/-! ## Dispatches and runs -/

/-- One call the enclosing validator makes: an input for `validate_input`, or an output for
`validate_output`. -/
inductive Dispatch where
  | input (inp : MetaTrxInput)
  | output (out : TrxOutput)
  deriving DecidableEq, Repr

/-- The domain claim a dispatch spends, if it is a domain input. -/
def Dispatch.inputClaim? : Dispatch → Option ClaimDomainOutput
  | .input inp => inp.output.domainClaim?
  | .output _ => none

/-- The domain claim a dispatch creates, if it is a domain output. -/
def Dispatch.outputClaim? : Dispatch → Option ClaimDomainOutput
  | .input _ => none
  | .output out => out.domainClaim?

/-- One dispatch against the transaction state and the shared block state. -/
def dispatch (db : DnsDb) (g : GenericValidator) (trx : SignedTransaction) :
    Dispatch → DnsTxEvaluationState → DnsBlockEvaluationState →
      Except String (DnsTxEvaluationState × DnsBlockEvaluationState)
  | .input inp, s, b => (·, b) <$> validateInput db g trx inp s
  | .output out, s, b => validateOutput db g trx out s b

/-- The dispatch loop, in the given order: the verdict (the final transaction state, or the
first exception) and the block state left behind. -/
def runDispatches (db : DnsDb) (g : GenericValidator) (trx : SignedTransaction) :
    List Dispatch → DnsTxEvaluationState → DnsBlockEvaluationState →
      Except String DnsTxEvaluationState × DnsBlockEvaluationState
  | [], s, b => (.ok s, b)
  | d :: ds, s, b =>
    match dispatch db g trx d s b with
    | .ok (s', b') => runDispatches db g trx ds s' b'
    | .error e => (.error e, b)

/-- Modelled from the spec: `evaluate` runs `on_evaluate` (not in the source) on a fresh
`dns_tx_evaluation_state`, and `on_evaluate` dispatches every input of the transaction and
then every output, in order (spec §2 and §4.4). -/
def evaluate (db : DnsDb) (g : GenericValidator) (trx : SignedTransaction)
    (inputs : List MetaTrxInput) (blockState : DnsBlockEvaluationState) :
    Except String DnsTxEvaluationState × DnsBlockEvaluationState :=
  runDispatches db g trx (inputs.map .input ++ trx.outputs.map .output) .init blockState

/-! ## The claim log -/

/-- A domain output accepted by `validate_output`, with the transaction state and the name
pool it was checked against. -/
structure ClaimEvent where
  state : DnsTxEvaluationState
  namePool : List String
  output : ClaimDomainOutput
  amount : Int

/-- What `name_is_available` reported for the event's output. -/
def ClaimEvent.status (db : DnsDb) (e : ClaimEvent) : NameStatus :=
  db.nameIsAvailable e.output.name e.namePool

/-- The branch of the output rule the event's output was accepted on. -/
def ClaimEvent.branch (db : DnsDb) (e : ClaimEvent) : ClaimBranch :=
  claimBranch db e.state (e.status db)

/-- The event a dispatch logs when it succeeds: only a domain output logs one. -/
def Dispatch.claimEvent? (d : Dispatch) (s : DnsTxEvaluationState)
    (b : DnsBlockEvaluationState) : Option ClaimEvent :=
  match d with
  | .input _ => none
  | .output out => out.domainClaim?.map fun c => ⟨s, b.namePool, c, out.amount⟩

/-- The domain outputs a run of dispatches accepts, in order, up to its first failure. -/
def acceptedClaims (db : DnsDb) (g : GenericValidator) (trx : SignedTransaction) :
    List Dispatch → DnsTxEvaluationState → DnsBlockEvaluationState → List ClaimEvent
  | [], _, _ => []
  | d :: ds, s, b =>
    match dispatch db g trx d s b with
    | .ok (s', b') => (d.claimEvent? s b).toList ++ acceptedClaims db g trx ds s' b'
    | .error _ => []

/-- The names a log adds to the pool. -/
def claimNames (log : List ClaimEvent) : List String :=
  log.map (·.output.name)

@[simp] theorem claimNames_nil : claimNames [] = [] := rfl

@[simp] theorem claimNames_append (l₁ l₂ : List ClaimEvent) :
    claimNames (l₁ ++ l₂) = claimNames l₁ ++ claimNames l₂ := List.map_append _ _ _

/-! ## One dispatch -/

section Step

variable {db : DnsDb} {g : GenericValidator} {trx : SignedTransaction} {d : Dispatch}
  {s s' : DnsTxEvaluationState} {b b' : DnsBlockEvaluationState}

/-- **What one dispatch can do.** A domain input runs the input rule and logs nothing; a
domain output runs the output rule, logs itself and pushes its name; any other dispatch
logs nothing, leaves the pool alone and changes only the generic part of the state. -/
theorem dispatch_cases (h : dispatch db g trx d s b = .ok (s', b')) :
    (∃ c a, d.inputClaim? = some c ∧ d.outputClaim? = none ∧ d.claimEvent? s b = none ∧
      b' = b ∧ validateDomainInput db c a s = .ok s') ∨
    (∃ c A, d.inputClaim? = none ∧ d.outputClaim? = some c ∧
      d.claimEvent? s b = some ⟨s, b.namePool, c, A⟩ ∧ b' = ⟨b.namePool ++ [c.name]⟩ ∧
      validateDomainOutput db trx c A b.namePool s = .ok s') ∨
    (d.inputClaim? = none ∧ d.outputClaim? = none ∧ d.claimEvent? s b = none ∧ b' = b ∧
      ∃ base, s' = { s with toTransactionEvaluationState := base }) := by
  cases d with
  | input inp =>
    simp only [dispatch, Except.map_eq_ok, Prod.mk.injEq] at h
    obtain ⟨x, hx, rfl, rfl⟩ := h
    cases hc : inp.output.domainClaim? with
    | some c => exact .inl ⟨c, _, hc, rfl, rfl, rfl, validateInput_of_domainClaim hc s ▸ hx⟩
    | none =>
      obtain ⟨base, -, rfl⟩ := (validateInput_eq_ok_of_none hc).1 hx
      exact .inr (.inr ⟨hc, rfl, rfl, rfl, base, rfl⟩)
  | output out =>
    cases hc : out.domainClaim? with
    | some c =>
      obtain ⟨hv, rfl⟩ := (validateOutput_eq_ok_of_domainClaim hc).1 h
      exact .inr (.inl ⟨c, _, rfl, hc, by simp [Dispatch.claimEvent?, hc], rfl, hv⟩)
    | none =>
      obtain ⟨base, -, rfl, rfl⟩ := (validateOutput_eq_ok_of_none hc).1 h
      exact .inr (.inr ⟨rfl, hc, by simp [Dispatch.claimEvent?, hc], rfl, base, rfl⟩)

/-- **Step spec of a dispatch on the pool.** A dispatch appends the name of the claim it
logs, and nothing else. -/
theorem dispatch_namePool (h : dispatch db g trx d s b = .ok (s', b')) :
    b'.namePool = b.namePool ++ claimNames (d.claimEvent? s b).toList := by
  rcases dispatch_cases h with ⟨_, _, -, -, he, rfl, -⟩ | ⟨_, _, -, -, he, rfl, -⟩ |
      ⟨-, -, he, rfl, -⟩ <;> simp [he, claimNames]

/-- **Step spec of a dispatch on the log.** A logged claim was accepted by the output
rule's decision table in the state and against the pool it records. -/
theorem dispatch_outputRule (h : dispatch db g trx d s b = .ok (s', b')) {e : ClaimEvent}
    (he : d.claimEvent? s b = some e) :
    e.state = s ∧ e.namePool = b.namePool ∧ s.seenDomainOutput = false ∧
      db.WellFormedClaim e.output e.amount ∧
      ∃ br, OutputRule db trx s e.output e.amount (e.status db) br s' := by
  rcases dispatch_cases h with ⟨_, _, -, -, he', -⟩ | ⟨_, _, -, -, he', -, hv⟩ | ⟨-, -, he', -⟩
  · simp [he'] at he
  · obtain rfl := Option.some.inj (he'.symm.trans he)
    exact ⟨rfl, rfl, validateDomainOutput_eq_ok_iff.1 hv⟩
  · simp [he'] at he

/-- A domain input needs the input flag clear, then sets it and records its claim. -/
theorem dispatch_inputClaim_some (h : dispatch db g trx d s b = .ok (s', b'))
    {c : ClaimDomainOutput} (hc : d.inputClaim? = some c) :
    s.seenDomainInput = false ∧ s'.seenDomainInput = true ∧ s'.input = c := by
  rcases dispatch_cases h with ⟨_, _, hc', -, -, -, hv⟩ | ⟨_, _, hc', -⟩ | ⟨hc', -⟩
  · obtain rfl := Option.some.inj (hc'.symm.trans hc)
    obtain ⟨hseen, -, rfl⟩ := validateDomainInput_eq_ok_iff.1 hv
    exact ⟨hseen, rfl, rfl⟩
  all_goals simp [hc] at hc'

/-- Every other dispatch keeps the input flag, the recorded domain input and its amount. -/
theorem dispatch_keeps_input (h : dispatch db g trx d s b = .ok (s', b'))
    (hc : d.inputClaim? = none) :
    s'.seenDomainInput = s.seenDomainInput ∧ s'.input = s.input ∧
      s'.inputAmount = s.inputAmount := by
  rcases dispatch_cases h with ⟨_, _, hc', -⟩ | ⟨_, _, -, -, -, -, hv⟩ | ⟨-, -, -, -, _, rfl⟩
  · simp [hc] at hc'
  · obtain ⟨-, -, _, hr⟩ := validateDomainOutput_eq_ok_iff.1 hv
    exact hr.fields.2
  · exact ⟨rfl, rfl, rfl⟩

/-- A domain input records its claim with the amount of the output it spends. -/
theorem dispatch_input_of_domainClaim {inp : MetaTrxInput} {c : ClaimDomainOutput}
    (h : dispatch db g trx (.input inp) s b = .ok (s', b'))
    (hc : inp.output.domainClaim? = some c) :
    s'.input = c ∧ s'.inputAmount = inp.output.amount := by
  simp only [dispatch, Except.map_eq_ok, Prod.mk.injEq] at h
  obtain ⟨_, hx, rfl, -⟩ := h
  obtain ⟨-, -, rfl⟩ := validateDomainInput_eq_ok_iff.1 (validateInput_of_domainClaim hc s ▸ hx)
  exact ⟨rfl, rfl⟩

/-- A domain output needs the output flag clear, then sets it. -/
theorem dispatch_outputClaim_some (h : dispatch db g trx d s b = .ok (s', b'))
    {c : ClaimDomainOutput} (hc : d.outputClaim? = some c) :
    s.seenDomainOutput = false ∧ s'.seenDomainOutput = true := by
  rcases dispatch_cases h with ⟨_, _, -, hc', -⟩ | ⟨_, _, -, -, -, -, hv⟩ | ⟨-, hc', -⟩
  · simp [hc] at hc'
  · obtain ⟨hseen, -, _, hr⟩ := validateDomainOutput_eq_ok_iff.1 hv
    exact ⟨hseen, hr.fields.1⟩
  · simp [hc] at hc'

/-- Every other dispatch keeps the output flag. -/
theorem dispatch_outputClaim_none (h : dispatch db g trx d s b = .ok (s', b'))
    (hc : d.outputClaim? = none) : s'.seenDomainOutput = s.seenDomainOutput := by
  rcases dispatch_cases h with ⟨_, _, -, -, -, -, hv⟩ | ⟨_, _, -, hc', -⟩ | ⟨-, -, -, -, _, rfl⟩
  · obtain ⟨-, -, rfl⟩ := validateDomainInput_eq_ok_iff.1 hv
    rfl
  · simp [hc] at hc'
  · rfl

end Step

/-! ## Whole runs -/

section Run

variable {db : DnsDb} {g : GenericValidator} {trx : SignedTransaction}

/-- **The pool after any run.** Accepted or rejected, a run leaves the pool it started from
followed by the names of the domain outputs it accepted before stopping. -/
theorem runDispatches_namePool (ds : List Dispatch) (s : DnsTxEvaluationState)
    (b : DnsBlockEvaluationState) :
    (runDispatches db g trx ds s b).2.namePool =
      b.namePool ++ claimNames (acceptedClaims db g trx ds s b) := by
  induction ds generalizing s b with
  | nil => simp [runDispatches, acceptedClaims]
  | cons d ds ih =>
    simp only [runDispatches, acceptedClaims]
    cases h : dispatch db g trx d s b with
    | error e => simp
    | ok r =>
      obtain ⟨s', b'⟩ := r
      simp only [ih, dispatch_namePool h, claimNames_append, List.append_assoc]

/-- **Every logged output passed the output rule.** -/
theorem acceptedClaims_outputRule {ds : List Dispatch} {s : DnsTxEvaluationState}
    {b : DnsBlockEvaluationState} {e : ClaimEvent} (he : e ∈ acceptedClaims db g trx ds s b) :
    e.state.seenDomainOutput = false ∧ db.WellFormedClaim e.output e.amount ∧
      ∃ br s', OutputRule db trx e.state e.output e.amount (e.status db) br s' := by
  induction ds generalizing s b with
  | nil => simp [acceptedClaims] at he
  | cons d ds ih =>
    simp only [acceptedClaims] at he
    cases h : dispatch db g trx d s b with
    | error => simp [h] at he
    | ok r =>
      obtain ⟨s', b'⟩ := r
      simp only [h, List.mem_append, Option.mem_toList] at he
      rcases he with he | he
      · obtain ⟨rfl, -, hout, hwf, br, hr⟩ := dispatch_outputRule h he
        exact ⟨hout, hwf, br, s', hr⟩
      · exact ih he

/-- A run accepts exactly when its first dispatch does and the rest of the run accepts. -/
theorem runDispatches_cons_fst_eq_ok {d : Dispatch} {ds : List Dispatch}
    {s s' : DnsTxEvaluationState} {b : DnsBlockEvaluationState} :
    (runDispatches db g trx (d :: ds) s b).1 = .ok s' ↔ ∃ s₁ b₁,
      dispatch db g trx d s b = .ok (s₁, b₁) ∧
        (runDispatches db g trx ds s₁ b₁).1 = .ok s' := by
  simp only [runDispatches]
  cases dispatch db g trx d s b with
  | error e => simp
  | ok r =>
    obtain ⟨s₁, b₁⟩ := r
    exact ⟨fun h => ⟨s₁, b₁, rfl, h⟩, fun ⟨_, _, he, h⟩ => by cases he; exact h⟩

theorem acceptedClaims_cons_of_ok {d : Dispatch} {ds : List Dispatch}
    {s s₁ : DnsTxEvaluationState} {b b₁ : DnsBlockEvaluationState}
    (h : dispatch db g trx d s b = .ok (s₁, b₁)) :
    acceptedClaims db g trx (d :: ds) s b =
      (d.claimEvent? s b).toList ++ acceptedClaims db g trx ds s₁ b₁ := by
  simp [acceptedClaims, h]

/-- **At most one domain input.** An accepted run dispatches at most one domain input, and
none at all from a state that has already seen one. -/
theorem runDispatches_inputClaims_le {ds : List Dispatch} {s s' : DnsTxEvaluationState}
    {b : DnsBlockEvaluationState} (h : (runDispatches db g trx ds s b).1 = .ok s') :
    (ds.filterMap Dispatch.inputClaim?).length + s.seenDomainInput.toNat ≤ 1 := by
  induction ds generalizing s b with
  | nil => cases s.seenDomainInput <;> simp
  | cons d ds ih =>
    obtain ⟨s₁, b₁, hd, h⟩ := runDispatches_cons_fst_eq_ok.1 h
    have hrest := ih h
    cases hc : d.inputClaim? with
    | none =>
      rw [(dispatch_keeps_input hd hc).1] at hrest
      simpa [List.filterMap_cons, hc] using hrest
    | some c =>
      obtain ⟨h₀, h₁, -⟩ := dispatch_inputClaim_some hd hc
      simp only [h₁, Bool.toNat_true] at hrest
      simp only [List.filterMap_cons, hc, h₀, List.length_cons, Bool.toNat_false]
      omega

/-- **At most one domain output.** An accepted run dispatches at most one domain output,
and none at all from a state that has already seen one. -/
theorem runDispatches_outputClaims_le {ds : List Dispatch} {s s' : DnsTxEvaluationState}
    {b : DnsBlockEvaluationState} (h : (runDispatches db g trx ds s b).1 = .ok s') :
    (ds.filterMap Dispatch.outputClaim?).length + s.seenDomainOutput.toNat ≤ 1 := by
  induction ds generalizing s b with
  | nil => cases s.seenDomainOutput <;> simp
  | cons d ds ih =>
    obtain ⟨s₁, b₁, hd, h⟩ := runDispatches_cons_fst_eq_ok.1 h
    have hrest := ih h
    cases hc : d.outputClaim? with
    | none =>
      rw [dispatch_outputClaim_none hd hc] at hrest
      simpa [List.filterMap_cons, hc] using hrest
    | some c =>
      obtain ⟨h₀, h₁⟩ := dispatch_outputClaim_some hd hc
      simp only [h₁, Bool.toNat_true] at hrest
      simp only [List.filterMap_cons, hc, h₀, List.length_cons, Bool.toNat_false]
      omega

/-- Once a domain input is recorded, an accepted run keeps it. -/
theorem runDispatches_input_of_seen {ds : List Dispatch} {s s' : DnsTxEvaluationState}
    {b : DnsBlockEvaluationState} (h : (runDispatches db g trx ds s b).1 = .ok s')
    (hs : s.seenDomainInput = true) : s'.seenDomainInput = true ∧ s'.input = s.input := by
  induction ds generalizing s b with
  | nil => simp only [runDispatches, Except.ok.injEq] at h; subst h; exact ⟨hs, rfl⟩
  | cons d ds ih =>
    obtain ⟨s₁, b₁, hd, h⟩ := runDispatches_cons_fst_eq_ok.1 h
    cases hc : d.inputClaim? with
    | none =>
      obtain ⟨h₁, h₂, -⟩ := dispatch_keeps_input hd hc
      rw [← h₂]
      exact ih h (h₁.trans hs)
    | some c => simp [(dispatch_inputClaim_some hd hc).1] at hs

/-- An accepted run ends with the domain input it dispatched recorded in the state. -/
theorem runDispatches_input_of_mem {ds : List Dispatch} {s s' : DnsTxEvaluationState}
    {b : DnsBlockEvaluationState} (h : (runDispatches db g trx ds s b).1 = .ok s')
    {c : ClaimDomainOutput} (hc : c ∈ ds.filterMap Dispatch.inputClaim?) :
    s'.seenDomainInput = true ∧ s'.input = c := by
  induction ds generalizing s b with
  | nil => simp at hc
  | cons d ds ih =>
    obtain ⟨s₁, b₁, hd, h⟩ := runDispatches_cons_fst_eq_ok.1 h
    cases hd' : d.inputClaim? with
    | none => exact ih h (by simpa [List.filterMap_cons, hd'] using hc)
    | some c' =>
      obtain ⟨-, h₁, h₂⟩ := dispatch_inputClaim_some hd hd'
      obtain ⟨h₃, h₄⟩ := runDispatches_input_of_seen h h₁
      have hlen := runDispatches_inputClaims_le h
      rw [h₁, Bool.toNat_true] at hlen
      have hnil : ds.filterMap Dispatch.inputClaim? = [] := List.eq_nil_of_length_eq_zero (by omega)
      simp only [List.filterMap_cons, hd', hnil, List.mem_singleton] at hc
      exact ⟨h₃, h₄.trans (h₂.trans hc.symm)⟩

/-- Once a domain input is recorded, every output logged after it was checked with it. -/
theorem acceptedClaims_input_of_seen {ds : List Dispatch} {s : DnsTxEvaluationState}
    {b : DnsBlockEvaluationState} (hs : s.seenDomainInput = true) {e : ClaimEvent}
    (he : e ∈ acceptedClaims db g trx ds s b) :
    e.state.seenDomainInput = true ∧ e.state.input = s.input := by
  induction ds generalizing s b with
  | nil => simp [acceptedClaims] at he
  | cons d ds ih =>
    cases hd : dispatch db g trx d s b with
    | error => simp [acceptedClaims, hd] at he
    | ok r =>
      obtain ⟨s₁, b₁⟩ := r
      rw [acceptedClaims_cons_of_ok hd, List.mem_append, Option.mem_toList] at he
      rcases he with he | he
      · rw [(dispatch_outputRule hd he).1]
        exact ⟨hs, rfl⟩
      · cases hc : d.inputClaim? with
        | none =>
          obtain ⟨h₁, h₂, -⟩ := dispatch_keeps_input hd hc
          rw [← h₂]
          exact ih (h₁.trans hs) he
        | some c => simp [(dispatch_inputClaim_some hd hc).1] at hs

/-- **A run over inputs.** An accepted run over inputs either keeps the input flag, the
recorded domain input and its amount, or ends with one of its domain inputs recorded, with
the amount of the output that input spends. -/
theorem runDispatches_map_input_cases {ins : List MetaTrxInput} {s s' : DnsTxEvaluationState}
    {b : DnsBlockEvaluationState} (h : (runDispatches db g trx (ins.map .input) s b).1 = .ok s') :
    (s'.seenDomainInput = s.seenDomainInput ∧ s'.input = s.input ∧
        s'.inputAmount = s.inputAmount) ∨
      ∃ inp ∈ ins, inp.output.domainClaim? = some s'.input ∧
        s'.inputAmount = inp.output.amount := by
  induction ins generalizing s b with
  | nil =>
    obtain rfl := Except.ok.inj h
    exact .inl ⟨rfl, rfl, rfl⟩
  | cons inp ins ih =>
    rw [List.map_cons] at h
    obtain ⟨s₁, b₁, hd, h⟩ := runDispatches_cons_fst_eq_ok.1 h
    rcases ih h with ⟨h₁, h₂, h₃⟩ | ⟨inp', hmem, hrest⟩
    · cases hc : inp.output.domainClaim? with
      | none =>
        obtain ⟨k₁, k₂, k₃⟩ := dispatch_keeps_input hd hc
        exact .inl ⟨h₁.trans k₁, h₂.trans k₂, h₃.trans k₃⟩
      | some c =>
        obtain ⟨k₂, k₃⟩ := dispatch_input_of_domainClaim hd hc
        exact .inr ⟨inp, List.mem_cons_self _ _, by rw [h₂, k₂, hc], h₃.trans k₃⟩
    · exact .inr ⟨inp', List.mem_cons_of_mem _ hmem, hrest⟩

/-- Outputs leave the recorded domain input alone: every output a run over outputs logs was
checked with the input flag, the domain input and the amount the run started from. -/
theorem acceptedClaims_map_output_state {outs : List TrxOutput} {s : DnsTxEvaluationState}
    {b : DnsBlockEvaluationState} {e : ClaimEvent}
    (he : e ∈ acceptedClaims db g trx (outs.map .output) s b) :
    e.state.seenDomainInput = s.seenDomainInput ∧ e.state.input = s.input ∧
      e.state.inputAmount = s.inputAmount := by
  induction outs generalizing s b with
  | nil => simp [acceptedClaims] at he
  | cons out outs ih =>
    rw [List.map_cons] at he
    cases hd : dispatch db g trx (.output out) s b with
    | error => simp [acceptedClaims, hd] at he
    | ok r =>
      obtain ⟨s₁, b₁⟩ := r
      rw [acceptedClaims_cons_of_ok hd, List.mem_append, Option.mem_toList] at he
      rcases he with he | he
      · rw [(dispatch_outputRule hd he).1]
        exact ⟨rfl, rfl, rfl⟩
      · obtain ⟨k₁, k₂, k₃⟩ := dispatch_keeps_input hd rfl
        obtain ⟨i₁, i₂, i₃⟩ := ih he
        exact ⟨i₁.trans k₁, i₂.trans k₂, i₃.trans k₃⟩

/-- An accepted run logs every domain output it dispatches, in order. -/
theorem acceptedClaims_outputs {ds : List Dispatch} {s s' : DnsTxEvaluationState}
    {b : DnsBlockEvaluationState} (h : (runDispatches db g trx ds s b).1 = .ok s') :
    (acceptedClaims db g trx ds s b).map (·.output) = ds.filterMap Dispatch.outputClaim? := by
  induction ds generalizing s b with
  | nil => rfl
  | cons d ds ih =>
    obtain ⟨s₁, b₁, hd, h⟩ := runDispatches_cons_fst_eq_ok.1 h
    rw [acceptedClaims_cons_of_ok hd, List.map_append, ih h, List.filterMap_cons]
    cases d with
    | input inp => simp [Dispatch.claimEvent?, Dispatch.outputClaim?]
    | output out =>
      cases hc : out.domainClaim? <;> simp [Dispatch.claimEvent?, Dispatch.outputClaim?, hc]

/-- An accepted run logs each domain output it dispatches with that output's amount. -/
theorem acceptedClaims_of_mem_outputs {ds : List Dispatch} {s s' : DnsTxEvaluationState}
    {b : DnsBlockEvaluationState} (h : (runDispatches db g trx ds s b).1 = .ok s')
    {out : TrxOutput} {c : ClaimDomainOutput} (hout : .output out ∈ ds)
    (hc : out.domainClaim? = some c) :
    ∃ e ∈ acceptedClaims db g trx ds s b, e.output = c ∧ e.amount = out.amount := by
  induction ds generalizing s b with
  | nil => simp at hout
  | cons d ds ih =>
    obtain ⟨s₁, b₁, hd, h⟩ := runDispatches_cons_fst_eq_ok.1 h
    rw [acceptedClaims_cons_of_ok hd]
    rcases List.mem_cons.1 hout with rfl | hout
    · exact ⟨⟨s, b.namePool, c, out.amount⟩, by simp [Dispatch.claimEvent?, hc], rfl, rfl⟩
    · obtain ⟨e, he, h₁, h₂⟩ := ih h hout
      exact ⟨e, List.mem_append_right _ he, h₁, h₂⟩

/-- Inputs log no claims. -/
theorem acceptedClaims_map_input (ins : List MetaTrxInput) (s : DnsTxEvaluationState)
    (b : DnsBlockEvaluationState) : acceptedClaims db g trx (ins.map .input) s b = [] := by
  induction ins generalizing s b with
  | nil => rfl
  | cons inp ins ih =>
    simp only [List.map_cons, acceptedClaims]
    cases dispatch db g trx (.input inp) s b with
    | error => rfl
    | ok r => simp [Dispatch.claimEvent?, ih]

/-- A run over a concatenation is the run over the first part, then, if that accepts,
the run over the second. -/
theorem runDispatches_append (ds₁ ds₂ : List Dispatch) (s : DnsTxEvaluationState)
    (b : DnsBlockEvaluationState) :
    runDispatches db g trx (ds₁ ++ ds₂) s b =
      match runDispatches db g trx ds₁ s b with
      | (.ok s₁, b₁) => runDispatches db g trx ds₂ s₁ b₁
      | (.error e, b₁) => (.error e, b₁) := by
  induction ds₁ generalizing s b with
  | nil => rfl
  | cons d ds ih =>
    simp only [List.cons_append, runDispatches]
    cases dispatch db g trx d s b with
    | error => rfl
    | ok r => exact ih r.1 r.2

/-- The log of a concatenation: the first part's, then the second's if the first accepts. -/
theorem acceptedClaims_append (ds₁ ds₂ : List Dispatch) (s : DnsTxEvaluationState)
    (b : DnsBlockEvaluationState) :
    acceptedClaims db g trx (ds₁ ++ ds₂) s b = acceptedClaims db g trx ds₁ s b ++
      match runDispatches db g trx ds₁ s b with
      | (.ok s₁, b₁) => acceptedClaims db g trx ds₂ s₁ b₁
      | (.error _, _) => [] := by
  induction ds₁ generalizing s b with
  | nil => simp [acceptedClaims, runDispatches]
  | cons d ds ih =>
    simp only [List.cons_append, acceptedClaims, runDispatches]
    cases dispatch db g trx d s b with
    | error => rfl
    | ok r => simp [ih]

end Run

/-! ## What a rejected transaction leaves behind -/

/-- **The pool after any attempt.** Accepted or rejected, a transaction leaves the pool it
found followed by the names of the domain outputs accepted before its first failing call,
in order; so it leaves the pool as it was exactly when it got no domain output accepted. -/
theorem namePool_after_attempt (db : DnsDb) (g : GenericValidator) (trx : SignedTransaction)
    (ds : List Dispatch) (s : DnsTxEvaluationState) (b : DnsBlockEvaluationState) :
    (runDispatches db g trx ds s b).2.namePool =
        b.namePool ++ claimNames (acceptedClaims db g trx ds s b) ∧
      ((runDispatches db g trx ds s b).2.namePool = b.namePool ↔
        acceptedClaims db g trx ds s b = []) := by
  rw [runDispatches_namePool]
  simp [claimNames]

/-- A transaction with two domain outputs, fresh claims of `"carol"` and `"dave"`. -/
def twoClaimsTrx : SignedTransaction :=
  ⟨[⟨100, 0, .domain ⟨"carol", "", .possiblyInAuction, ⟨2⟩⟩⟩,
    ⟨100, 0, .domain ⟨"dave", "", .possiblyInAuction, ⟨2⟩⟩⟩], [⟨2⟩]⟩

/-- The second domain output is refused, but `"carol"` stays in the pool. -/
theorem rejected_transaction_keeps_claimed_name :
    evaluate ((Ledger.empty 1).dnsDb .sample) .acceptAll twoClaimsTrx [] createBlockState =
      (.error "More than one domain claim output in tx: $\x7btx\x7d", ⟨["carol"]⟩) := by
  rfl

/-! ## The shape of an accepted transaction -/

/-- **At most one claim each way, and no rename.** Dispatched in any order, an accepted
transaction has at most one domain input and at most one domain output. Dispatched inputs
first, a transaction with both accepts its domain output under the input's name, and not on
the fresh-claim branch. -/
theorem transaction_claim_shape (db : DnsDb) (g : GenericValidator) (trx : SignedTransaction)
    (b : DnsBlockEvaluationState) :
    (∀ ds s, (runDispatches db g trx ds .init b).1 = .ok s →
      (ds.filterMap Dispatch.inputClaim?).length ≤ 1 ∧
        (ds.filterMap Dispatch.outputClaim?).length ≤ 1) ∧
    (∀ (ins : List MetaTrxInput) (outs : List TrxOutput) s,
      (runDispatches db g trx (ins.map .input ++ outs.map .output) .init b).1 = .ok s →
      ∀ ci ∈ ins.filterMap (·.output.domainClaim?), ∀ co ∈ outs.filterMap (·.domainClaim?),
        co.name = ci.name ∧
          ∃ e ∈ acceptedClaims db g trx (ins.map .input ++ outs.map .output) .init b,
            e.output = co ∧ e.branch db ≠ .freshClaim) := by
  refine ⟨fun ds s h => ⟨?_, ?_⟩, fun ins outs s h ci hci co hco => ?_⟩
  · simpa [DnsTxEvaluationState.init] using runDispatches_inputClaims_le h
  · simpa [DnsTxEvaluationState.init] using runDispatches_outputClaims_le h
  · rw [runDispatches_append] at h
    rw [acceptedClaims_append, acceptedClaims_map_input, List.nil_append]
    cases hin : runDispatches db g trx (ins.map .input) .init b with
    | mk v b₁ =>
    cases v with
    | error => simp [hin] at h
    | ok s₁ =>
    simp only [hin] at h ⊢
    have hci' : ci ∈ (ins.map Dispatch.input).filterMap Dispatch.inputClaim? := by
      simpa [List.filterMap_map, Function.comp_def, Dispatch.inputClaim?] using hci
    obtain ⟨hseen, hinput⟩ := runDispatches_input_of_mem (by rw [hin]) hci'
    have hco' : co ∈ (acceptedClaims db g trx (outs.map .output) s₁ b₁).map (·.output) := by
      rw [acceptedClaims_outputs h]
      simpa [List.filterMap_map, Function.comp_def, Dispatch.outputClaim?] using hco
    obtain ⟨e, he, rfl⟩ := List.mem_map.1 hco'
    obtain ⟨heseen, heinput⟩ := acceptedClaims_input_of_seen hseen he
    obtain ⟨-, -, br, s', hr⟩ := acceptedClaims_outputRule he
    refine ⟨(hr.name_eq_of_seen heseen).trans (by rw [heinput, hinput]), e, he, rfl, ?_⟩
    simp [ClaimEvent.branch, claimBranch_eq_freshClaim, heseen]

/-! ## Authorisation on a sample input -/

/-- Key 1's record of `"alice"`, written at height 1 and read at height 4: its auction is
over and it has not expired. -/
def aliceLedger : Ledger :=
  ⟨[⟨⟨"alice", "", .notInAuction, ⟨1⟩⟩, 100, 1, ⟨1, 0⟩⟩], 4, by decide⟩

/-- The output holding key 1's record, spent as a domain input. -/
def aliceRecordInput : MetaTrxInput :=
  ⟨⟨1, 0⟩, ⟨100, 0, .domain ⟨"alice", "", .notInAuction, ⟨1⟩⟩⟩⟩

/-- A transaction spending key 1's record into a claim owned by key 3, signed by key 3. -/
def takeoverTrx : SignedTransaction :=
  ⟨[⟨100, 0, .domain ⟨"alice", "", .possiblyInAuction, ⟨3⟩⟩⟩], [⟨3⟩]⟩

/-- Key 3 takes `"alice"` over on the update branch without key 1's signature. -/
theorem takeover_without_owner_signature :
    (evaluate (aliceLedger.dnsDb .sample) .acceptAll takeoverTrx [aliceRecordInput]
        createBlockState).1.toBool = true ∧
      aliceRecordInput.output.domainClaim?.map (·.owner) = some ⟨1⟩ ∧
      (⟨1⟩ : PublicKey) ∉ takeoverTrx.signers ∧
      (acceptedClaims (aliceLedger.dnsDb .sample) .acceptAll takeoverTrx
          ([aliceRecordInput].map .input ++ takeoverTrx.outputs.map .output) .init
          createBlockState).map (·.branch (aliceLedger.dnsDb .sample)) = [.update] := by
  decide

end PtsDns
