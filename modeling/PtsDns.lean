import PtsDns.Basic
import PtsDns.Validator
import PtsDns.Ledger
import PtsDns.Auction
import PtsDns.Transaction
import PtsDns.Block
import PtsDns.Chain
import PtsDns.Lifecycle
