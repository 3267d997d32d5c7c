import Soroscan.Format
import Soroscan.Lib.Least
import Soroscan.ScDisplay

/-!
# The activity feed

`activity.ts`: what an operation shows of itself, and the rows of the feed, each a transaction with its first operation. Of a
transaction only the hash is looked at; the rest of its record is carried along.
-/

namespace Soroscan

namespace Activity

/-- `asset_balance_changes`: what a contract call moved. -/
structure BalanceChange where
  type : JsString
  amount : Option JsString
  assetType : Option JsString
  assetCode : Option JsString
  assetIssuer : Option JsString
  deriving DecidableEq, Repr

/-- `OperationRecord`: an operation, with the fields that are read here. -/
structure OperationRecord where
  pagingToken : JsString
  transactionHash : JsString
  type : JsString
  sourceAccount : JsString
  fromAccount : Option JsString
  toAccount : Option JsString
  amount : Option JsString
  assetType : Option JsString
  assetCode : Option JsString
  assetIssuer : Option JsString
  funder : Option JsString
  account : Option JsString
  startingBalance : Option JsString
  into : Option JsString
  address : Option JsString
  function : Option JsString
  /-- The values of the parameters. -/
  parameters : Option (List JsString)
  assetBalanceChanges : Option (List BalanceChange)
  sellingAssetType : Option JsString
  sellingAssetCode : Option JsString
  sellingAssetIssuer : Option JsString
  buyingAssetType : Option JsString
  buyingAssetCode : Option JsString
  buyingAssetIssuer : Option JsString
  trustor : Option JsString
  trustee : Option JsString
  asset : Option JsString
  limit : Option JsString
  price : Option JsString
  sourceAmount : Option JsString
  sourceAssetType : Option JsString
  sourceAssetCode : Option JsString
  sourceAssetIssuer : Option JsString
  /-- The codes of the assets on the way. -/
  path : Option (List (Option JsString))
  deriving DecidableEq, Repr

/-- `OpFamily`. -/
inductive OpFamily
  | transfer
  | contract
  | dex
  | config
  | other
  deriving DecidableEq, Repr

/-- `PrimaryOp`: what an operation shows of itself. -/
structure PrimaryOp where
  type : JsString
  label : JsString
  family : OpFamily
  detail : Option JsString := none
  toHint : Option JsString := none
  fromAccount : Option JsString := none
  toAccount : Option JsString := none
  amount : Option JsString := none
  assetCode : Option JsString := none
  assetIssuer : Option JsString := none
  sourceAmount : Option JsString := none
  sourceAssetCode : Option JsString := none
  sourceAssetIssuer : Option JsString := none
  buyingAssetCode : Option JsString := none
  buyingAssetIssuer : Option JsString := none
  price : Option JsString := none
  limit : Option JsString := none
  hops : Option Nat := none
  deriving DecidableEq, Repr

/-- The string of a literal. -/
def lit (s : String) : JsString := js s.toList

/-- `OP_PRESENTATIONS`. A type that is the name of an inherited property finds something without a label or a family, which is shown as
a type that is not listed. -/
def opPresentations : List (JsString × JsString × OpFamily) :=
  [(lit "payment", lit "Payment", .transfer),
    (lit "path_payment_strict_send", lit "Path payment", .transfer),
    (lit "path_payment_strict_receive", lit "Path payment", .transfer),
    (lit "create_account", lit "Create account", .transfer),
    (lit "account_merge", lit "Account merge", .transfer),
    (lit "create_claimable_balance", lit "Claimable balance", .transfer),
    (lit "claim_claimable_balance", lit "Claim balance", .transfer),
    (lit "clawback", lit "Clawback", .transfer),
    (lit "clawback_claimable_balance", lit "Clawback", .transfer),
    (lit "invoke_host_function", lit "Contract call", .contract),
    (lit "extend_footprint_ttl", lit "Extend TTL", .contract),
    (lit "restore_footprint", lit "Restore data", .contract),
    (lit "manage_sell_offer", lit "DEX offer", .dex),
    (lit "manage_buy_offer", lit "DEX offer", .dex),
    (lit "create_passive_sell_offer", lit "DEX offer", .dex),
    (lit "liquidity_pool_deposit", lit "LP deposit", .dex),
    (lit "liquidity_pool_withdraw", lit "LP withdraw", .dex),
    (lit "change_trust", lit "Trustline", .config),
    (lit "set_trust_line_flags", lit "Trustline flags", .config),
    (lit "allow_trust", lit "Trustline flags", .config),
    (lit "set_options", lit "Set options", .config),
    (lit "manage_data", lit "Manage data", .config),
    (lit "bump_sequence", lit "Bump sequence", .config),
    (lit "begin_sponsoring_future_reserves", lit "Sponsorship", .config),
    (lit "end_sponsoring_future_reserves", lit "Sponsorship", .config),
    (lit "revoke_sponsorship", lit "Sponsorship", .config),
    (lit "inflation", lit "Inflation", .config)]

/-- `amountOf`. -/
def amountOf (value : Option JsString) : Option JsString := value.filter (isDecimalText none)

/-- The end of `assetCodeOf` and `claimableCodeOf`: the protocol caps codes at 12. -/
def cappedCode (code : JsString) : Option JsString := if code = [] ∨ 12 < code.length then none else some code

/-- `assetCodeOf`. -/
def assetCodeOf (assetType assetCode : Option JsString) : Option JsString :=
  if assetType = some (lit "native") then some (lit "XLM") else cappedCode (sanitizeChainText (assetCode.getD []))

/-- `INVOKE_CONTRACT_FN`. -/
def invokeContractFn : JsString := lit "HostFunctionTypeHostFunctionTypeInvokeContract"

/-- `presentInvoke`. -/
def presentInvoke (op : OperationRecord) (base : PrimaryOp) : PrimaryOp :=
  let invoke := op.function == some invokeContractFn
  let parameter := fun i : Nat => charsOf ((op.parameters.bind fun ps => ps[i]?).getD [])
  let invoked := if invoke then decodeScAddress (parameter 0) else none
  let moved := op.assetBalanceChanges.bind fun changes =>
    changes.find? fun change => change.type == lit "transfer" || change.type == lit "mint"
  -- an address that is the empty string counts as none
  let target := (op.address.filter fun address => address ≠ []).or invoked
  { base with
    detail := if invoke then decodeScSymbol (parameter 1) else none
    fromAccount := some op.sourceAccount
    toAccount := target
    toHint := if target = none then some (lit "contract") else none
    amount := amountOf (moved.bind BalanceChange.amount)
    assetCode := moved.bind fun change => assetCodeOf change.assetType change.assetCode
    assetIssuer := moved.bind BalanceChange.assetIssuer }

/-- The code unit of the colon. -/
def colon : UInt16 := 58

/-- `claimableIssuerOf`. -/
def claimableIssuerOf (asset : Option JsString) : Option JsString :=
  (asset.bind fun a => (a.splitOn colon)[1]?).filter fun issuer => issuer ≠ []

/-- `claimableCodeOf`. -/
def claimableCodeOf (asset : Option JsString) : Option JsString :=
  asset.bind fun a =>
    if a = lit "native" then some (lit "XLM") else cappedCode (sanitizeChainText ((a.splitOn colon)[0]?.getD []))

/-- `presentOperation`. -/
def presentOperation (op : OperationRecord) : PrimaryOp :=
  let preset := opPresentations.lookup op.type
  let label := (preset.map Prod.fst).getD ((sanitizeChainText op.type).map fun u => if u = 0x5F then 0x20 else u)
  let base : PrimaryOp := { type := op.type, label := label, family := (preset.map Prod.snd).getD .other }
  let isOne := fun types : List String => types.any fun type => op.type == lit type
  if isOne ["payment"] then
    { base with
      fromAccount := op.fromAccount
      toAccount := op.toAccount
      amount := amountOf op.amount
      assetCode := assetCodeOf op.assetType op.assetCode
      assetIssuer := op.assetIssuer }
  else if isOne ["path_payment_strict_send", "path_payment_strict_receive"] then
    let assetCode := assetCodeOf op.assetType op.assetCode
    let sourceAssetCode := assetCodeOf op.sourceAssetType op.sourceAssetCode
    -- one asset in and another out is a swap
    let swapped := assetCode ≠ none ∧ sourceAssetCode ≠ none ∧ assetCode ≠ sourceAssetCode
    { base with
      label := if swapped then lit "Swap" else label
      fromAccount := op.fromAccount
      toAccount := op.toAccount
      amount := amountOf op.amount
      assetCode := assetCode
      assetIssuer := op.assetIssuer
      sourceAmount := amountOf op.sourceAmount
      sourceAssetCode := sourceAssetCode
      sourceAssetIssuer := op.sourceAssetIssuer
      hops := op.path.map List.length }
  else if isOne ["create_account"] then
    { base with
      fromAccount := op.funder
      toAccount := op.account
      amount := amountOf op.startingBalance
      assetCode := some (lit "XLM") }
  else if isOne ["account_merge"] then
    { base with fromAccount := op.account.or (some op.sourceAccount), toAccount := op.into }
  else if isOne ["invoke_host_function"] then presentInvoke op base
  else if isOne ["manage_sell_offer", "create_passive_sell_offer"] then
    { base with
      fromAccount := some op.sourceAccount
      toHint := some (lit "order book")
      amount := amountOf op.amount
      assetCode := assetCodeOf op.sellingAssetType op.sellingAssetCode
      assetIssuer := op.sellingAssetIssuer
      buyingAssetCode := assetCodeOf op.buyingAssetType op.buyingAssetCode
      buyingAssetIssuer := op.buyingAssetIssuer
      price := amountOf op.price }
  else if isOne ["manage_buy_offer"] then
    { base with
      fromAccount := some op.sourceAccount
      toHint := some (lit "order book")
      amount := amountOf op.amount
      assetCode := assetCodeOf op.buyingAssetType op.buyingAssetCode
      assetIssuer := op.buyingAssetIssuer
      buyingAssetCode := assetCodeOf op.sellingAssetType op.sellingAssetCode
      buyingAssetIssuer := op.sellingAssetIssuer
      price := amountOf op.price }
  else if isOne ["liquidity_pool_deposit", "liquidity_pool_withdraw"] then
    { base with fromAccount := some op.sourceAccount, toHint := some (lit "liquidity pool") }
  else if isOne ["create_claimable_balance"] then
    { base with
      fromAccount := some op.sourceAccount
      toHint := some (lit "claimable balance")
      amount := amountOf op.amount
      assetCode := claimableCodeOf op.asset
      assetIssuer := claimableIssuerOf op.asset }
  else if isOne ["claim_claimable_balance"] then
    { base with fromAccount := some op.sourceAccount, toHint := some (lit "claimable balance") }
  else if isOne ["clawback"] then
    { base with
      fromAccount := op.fromAccount
      toAccount := some op.sourceAccount
      amount := amountOf op.amount
      assetCode := assetCodeOf op.assetType op.assetCode
      assetIssuer := op.assetIssuer }
  else if isOne ["set_trust_line_flags", "allow_trust"] then
    { base with fromAccount := some op.sourceAccount, toAccount := op.trustor }
  else if isOne ["change_trust"] then
    let target := op.trustee.or op.assetIssuer
    { base with
      fromAccount := op.trustor.or (some op.sourceAccount)
      toAccount := target
      toHint := if target = none then some (lit "liquidity pool") else none
      assetCode := assetCodeOf op.assetType op.assetCode
      assetIssuer := op.assetIssuer
      limit := amountOf op.limit }
  else if isOne ["extend_footprint_ttl", "restore_footprint"] then
    { base with fromAccount := some op.sourceAccount, toHint := some (lit "contract storage") }
  else if isOne ["set_options", "manage_data", "bump_sequence"] then
    { base with fromAccount := some op.sourceAccount, toHint := some (lit "own account") }
  else { base with fromAccount := some op.sourceAccount }

/-! ## The rows of the feed -/

/-- `TxRecord`: a transaction, with the hash that is read here and the rest. -/
structure TxRecord (Detail : Type) where
  hash : JsString
  detail : Detail
  deriving DecidableEq, Repr

/-- `ActivityRow`. -/
structure ActivityRow (Detail : Type) where
  tx : TxRecord Detail
  op : Option PrimaryOp
  deriving DecidableEq, Repr

/-- `HASH_SHAPE`. -/
def hasHashShape (hash : JsString) : Bool :=
  decide (hash.length = 64) && hash.all fun u => (48 ≤ u && u ≤ 57) || (97 ≤ u && u ≤ 102)

/-- One round of the loop over the operations: the operation of a transaction with the smaller token is kept. -/
def keepFirst (primaryByTx : JsString → Option OperationRecord) (op : OperationRecord) : JsString → Option OperationRecord :=
  keepLeast OperationRecord.transactionHash (fun op current => decide (op.pagingToken < current.pagingToken)) primaryByTx op

/-- `buildActivityRows`. -/
def buildActivityRows {Detail : Type} (txs : List (TxRecord Detail)) (ops : List OperationRecord) : List (ActivityRow Detail) :=
  let primaryByTx := ops.foldl keepFirst fun _ => none
  (txs.filter fun tx => hasHashShape tx.hash).map fun tx => ⟨tx, (primaryByTx tx.hash).map presentOperation⟩

end Activity

end Soroscan
