import CoinWire.Block

/-!
# Reports

A report holds every field of a value and of all below it, with the hashes and sums that are
computed from them. Making one parses the whole tree.
-/

namespace CoinWire

structure TxReport where
  fields : Tx
  hash : Hash
  coinbase : Bool
  outputValue : Int64

structure BlockReport where
  header : Header
  hash : Hash
  /-- Transactions and signature; none if only the header is known. -/
  body : Option (List TxReport × Bytes)

def Transaction.report : Access Transaction TxReport := do
  let fields ← Transaction.contents
  let hash ← Node.hash
  let coinbase ← Transaction.isCoinbase
  let outputValue ← Transaction.outputValue
  return ⟨fields, hash, coinbase, outputValue⟩

def Block.report : Access Block BlockReport := do
  let header ← Block.headerFields
  let hash ← Block.hash
  let body ← Block.onBody? (Node.look do
    let transactions ← BodyFields.onTransactions (Access.each Transaction.report)
    return (transactions, (← get).signature))
  return ⟨header, hash, body⟩

end CoinWire
