/-
# The ledger, as the spec describes it

`dns_db` and the `dns_util` helpers are not part of the source given here. This module
builds them from the spec: committed domain records, one per name (§3); the availability
oracle (§4.1); the auction and expiry predicates, both measured in blocks (§4.2); and the
structural checks (§4.4 step 2), over the policy constants the spec leaves open (§9).
`Ledger.dnsDb` is then a `DnsDb` the validator runs against, and it meets both oracle
contracts the block-level results assume:

* `Ledger.dnsDb_poolUnavailable` : a name in the pool is never available;
* `Ledger.dnsDb_poolLocal` : the oracle reads the pool only at the queried name.
-/
import PtsDns.Basic

namespace PtsDns

/-! ## Policy and records -/

/-- Modelled from the spec: the policy constants spec §9 leaves open. An auction lasts
`auctionLength` blocks and a claim `claimLifetime` blocks; a name is drawn from the
characters `isNameChar` admits; a claim locks at least `minAmount`, the minimum auction
floor; a bid must beat the amount it outbids by `minBidIncrement`, and refunds the outbid
owner `refund prev bid`, at least the amount it outbids and at most the bid, in the asset
`unit` the ledger counts amounts in. -/
structure DnsPolicy where
  auctionLength : Nat
  claimLifetime : Nat
  maxNameLength : Nat
  isNameChar : Char → Bool
  maxValueLength : Nat
  minAmount : Int
  unit : Nat
  minBidIncrement : Int
  refund : Int → Int → Int
  minBidIncrement_pos : 0 < minBidIncrement
  le_refund : ∀ prev bid, prev ≤ refund prev bid
  refund_le : ∀ prev bid, prev + minBidIncrement ≤ bid → refund prev bid ≤ bid

/-- A policy to run the model on: auctions of 2 blocks, claims of 4, names of at most 16
lower-case letters, digits and hyphens, values of at most 64 characters, claims of at least
50 in asset 0, and bids that beat the last amount by 1 and refund it in full. -/
def DnsPolicy.sample : DnsPolicy where
  auctionLength := 2
  claimLifetime := 4
  maxNameLength := 16
  isNameChar c := c.isLower || c.isDigit || c == '-'
  maxValueLength := 64
  minAmount := 50
  unit := 0
  minBidIncrement := 1
  refund prev _ := prev
  minBidIncrement_pos := by decide
  le_refund prev _ := Int.le_refl prev
  refund_le _ _ h := by simp only at h ⊢; omega

/-- Modelled from the spec: a committed domain record (§3): the claim as last written
(name, value, auction state, owner), the amount locked with it, the height of the
transaction that wrote it, and the output holding it. -/
structure DnsRecord where
  claim : ClaimDomainOutput
  amount : Int
  lastUpdateHeight : Nat
  outputRef : OutputReference
  deriving DecidableEq, Repr

/-- Modelled from the spec: the ledger the validator reads, one record per name (§6), and
the height of the block being validated. -/
structure Ledger where
  records : List DnsRecord
  height : Nat
  names_nodup : (records.map (·.claim.name)).Nodup

/-- The ledger before any claim, at height `h`. -/
def Ledger.empty (h : Nat) : Ledger := ⟨[], h, List.nodup_nil⟩

/-- The record of a name. -/
def Ledger.record? (l : Ledger) (name : String) : Option DnsRecord :=
  l.records.find? (·.claim.name == name)

/-- The record held by an output. -/
def Ledger.recordAt? (l : Ledger) (ref : OutputReference) : Option DnsRecord :=
  l.records.find? (·.outputRef == ref)

/-- The age of a record in blocks: current height less the height that wrote it. -/
def Ledger.age (l : Ledger) (r : DnsRecord) : Nat :=
  l.height - r.lastUpdateHeight

/-! ## The oracle and the predicates -/

section Oracle

variable (P : DnsPolicy) (l : Ledger)

/-- Modelled from the spec (§4.2): the auction of a record is over once `auctionLength`
blocks have passed since the transaction that wrote it. -/
def Ledger.auctionClosed (r : DnsRecord) : Bool :=
  decide (P.auctionLength ≤ l.age r)

/-- Modelled from the spec (§4.1, §4.2): a record has expired once its age exceeds the
claim lifetime. -/
def Ledger.expired (r : DnsRecord) : Bool :=
  decide (P.claimLifetime < l.age r)

/-- Modelled from the spec (§4.1): `name_is_available`. A name is new or expired without an
unexpired record; it is available when it is not in the pool and has no record, an expired
one, or one still in auction; `prev_tx_ref` is the output holding its record. -/
def Ledger.nameIsAvailable (name : String) (pool : List String) : NameStatus :=
  match l.record? name with
  | none => ⟨decide (name ∉ pool), true, default⟩
  | some r =>
    ⟨decide (name ∉ pool) && (l.expired P r || !l.auctionClosed P r), l.expired P r,
      r.outputRef⟩

/-- Modelled from the spec: the ledger and its helpers as the validator sees them. An
output that holds no record counts as closed and expired; the validator never asks about
one, since it stops at `new_or_expired` first. The name rule checks length and character
set (§4.4 step 2). `is_valid_amount` sees only the amount, not which branch the output
takes, so the minimum auction floor applies to every claim output. Only an asset of the
ledger's unit counts towards a refund. -/
def Ledger.dnsDb : DnsDb where
  hasDnsRecord name := (l.record? name).isSome
  nameIsAvailable := l.nameIsAvailable P
  auctionIsClosed ref := ((l.recordAt? ref).map (l.auctionClosed P)).getD true
  domainIsExpired ref := ((l.recordAt? ref).map (l.expired P)).getD true
  isValidName name :=
    decide (0 < name.length ∧ name.length ≤ P.maxNameLength) && name.toList.all P.isNameChar
  isValidValue value := decide (value.length ≤ P.maxValueLength)
  isValidState
    | .possiblyInAuction => true
    | .notInAuction => true
    | .unrecognised _ => false
  isValidAmount amount := decide (0 < amount ∧ P.minAmount ≤ amount)
  isValidBidPrice prev bid :=
    if prev + P.minBidIncrement ≤ bid then some (P.refund prev bid) else none
  amountAtLeast amount unit amountBack := decide (unit = P.unit ∧ amountBack ≤ amount)

@[simp] theorem Ledger.dnsDb_nameIsAvailable :
    (l.dnsDb P).nameIsAvailable = l.nameIsAvailable P := rfl

@[simp] theorem Ledger.dnsDb_auctionIsClosed (ref : OutputReference) :
    (l.dnsDb P).auctionIsClosed ref = ((l.recordAt? ref).map (l.auctionClosed P)).getD true :=
  rfl

@[simp] theorem Ledger.dnsDb_domainIsExpired (ref : OutputReference) :
    (l.dnsDb P).domainIsExpired ref = ((l.recordAt? ref).map (l.expired P)).getD true :=
  rfl

@[simp] theorem Ledger.dnsDb_amountAtLeast {amount amountBack : Int} {unit : Nat} :
    (l.dnsDb P).amountAtLeast amount unit amountBack = true ↔
      unit = P.unit ∧ amountBack ≤ amount := by
  simp [Ledger.dnsDb]

/-- **The pool contract.** A name in the pool is never available. -/
theorem Ledger.dnsDb_poolUnavailable : (l.dnsDb P).PoolUnavailable := by
  intro n pool hn
  simp only [Ledger.dnsDb, Ledger.nameIsAvailable]
  cases l.record? n <;> simp [hn]

/-- **The locality contract.** The oracle reads the pool only at the queried name. -/
theorem Ledger.dnsDb_poolLocal : (l.dnsDb P).PoolLocal := by
  intro n p q hpq
  simp only [Ledger.dnsDb, Ledger.nameIsAvailable, hpq]

/-- **The monotonicity contract.** Only availability reads the pool, and a larger pool can
only take it away. -/
theorem Ledger.dnsDb_poolAntitone : (l.dnsDb P).PoolAntitone := by
  intro n p q hpq
  simp only [Ledger.dnsDb, Ledger.nameIsAvailable]
  have hmem : n ∉ q → n ∉ p := fun hq hp => hq (hpq hp)
  cases l.record? n with
  | none => simpa using hmem
  | some r => simpa using fun hq hr => ⟨hmem hq, hr⟩
end Oracle

/-! ## Committing claims -/

/-- Modelled from the spec (§3): committing an accepted claim output at the current height
writes the name's record, superseding any earlier one. -/
def Ledger.commitClaim (l : Ledger) (ref : OutputReference) (c : ClaimDomainOutput)
    (amount : Int) : Ledger where
  records := ⟨c, amount, l.height, ref⟩ :: l.records.filter (·.claim.name != c.name)
  height := l.height
  names_nodup := by
    rw [List.map_cons, List.nodup_cons]
    exact ⟨by simp [List.mem_filter], l.names_nodup.sublist ((List.filter_sublist _).map _)⟩

end PtsDns
