import Soroscan.Activity

/-!
# The primary operation is the first one

A paging token is the place of an operation in the ledger, written as a decimal number. Between the tokens of one transaction there is
no power of ten, as they begin with a multiple of 4096 that is followed by less than a hundred of them; so they are of one length, and
the order of strings by which the feed compares them is the order of numbers.
-/

namespace Soroscan

namespace Activity

open DecimalText

/-- The place of a transaction: its ledger, and its number in the ledger. -/
structure Place where
  ledger : Nat
  tx : Nat
  ledger_pos : 1 ≤ ledger
  ledger_lt : ledger < 2 ^ 31
  tx_lt : tx < 2 ^ 20

/-- The number of an operation of the transaction. -/
def Place.token (p : Place) (op : Nat) : Nat := p.ledger * 2 ^ 32 + p.tx * 2 ^ 12 + op

/-- The paging token of an operation is its number at the place of its transaction. -/
def IsPaged (place : JsString → Place) (op : OperationRecord) : Prop :=
  ∃ k, 1 ≤ k ∧ k ≤ 100 ∧ op.pagingToken = js (decimal ((place op.transactionHash).token k))

/-- 64 lower-case hexadecimal digits. -/
def IsHexHash (hash : JsString) : Prop := hash.length = 64 ∧ ∀ u ∈ hash, u ∈ js "0123456789abcdef".toList

instance (hash : JsString) : Decidable (IsHexHash hash) := inferInstanceAs (Decidable (_ ∧ _))

/-! ## Tokens of one transaction -/

/-- No power of ten is between two tokens of one transaction. -/
theorem token_lt_pow_iff (p : Place) {j k : Nat} (hj : 1 ≤ j ∧ j ≤ 100) (hk : 1 ≤ k ∧ k ≤ 100) (l : Nat) :
    p.token j < 10 ^ l ↔ p.token k < 10 ^ l := by
  have hledger := p.ledger_pos
  rw [Place.token, Place.token]
  rcases Nat.lt_or_ge l 10 with hsmall | hlarge
  · -- the power is less than any token
    have hpow : 10 ^ l ≤ 10 ^ 9 := Nat.pow_le_pow_right (by decide) (by omega)
    omega
  · -- the power is too far above a multiple of 4096
    have hmod : 10 ^ l % 4096 = 0 ∨ 10 ^ l % 4096 = 1024 ∨ 10 ^ l % 4096 = 2048 := by
      rcases Nat.lt_or_ge l 12 with hlt | hge
      · have hcases : l = 10 ∨ l = 11 := by omega
        rcases hcases with rfl | rfl
        · exact Or.inr (Or.inl rfl)
        · exact Or.inr (Or.inr rfl)
      · obtain ⟨m, rfl⟩ := Nat.exists_eq_add_of_le' hge
        rw [Nat.pow_add]
        exact Or.inl (Nat.mod_eq_zero_of_dvd (Dvd.dvd.mul_left (by decide) _))
    generalize 10 ^ l = power at hmod
    omega

/-- Tokens of one transaction are of one length. -/
theorem length_token (p : Place) {j k : Nat} (hj : 1 ≤ j ∧ j ≤ 100) (hk : 1 ≤ k ∧ k ≤ 100) :
    (js (decimal (p.token j))).length = (js (decimal (p.token k))).length := by
  have hle : ∀ l, 0 < l → ((decimal (p.token j)).length ≤ l ↔ (decimal (p.token k)).length ≤ l) := by
    intro l hl
    rw [decimal, decimal, Nat.length_toDigits_le_iff (by decide) hl, Nat.length_toDigits_le_iff (by decide) hl]
    exact token_lt_pow_iff p hj hk l
  rw [length_js_decimal, length_js_decimal]
  exact Nat.le_antisymm ((hle _ (decimal_length_pos _)).mpr le_rfl) ((hle _ (decimal_length_pos _)).mp le_rfl)

/-- Tokens of one transaction are ordered as strings as they are as numbers. -/
theorem pagingToken_lt_iff {place : JsString → Place} {a b : OperationRecord} (ha : IsPaged place a) (hb : IsPaged place b)
    (hkey : b.transactionHash = a.transactionHash) :
    a.pagingToken < b.pagingToken ↔ numberOf a.pagingToken < numberOf b.pagingToken := by
  obtain ⟨j, hj, hj', ha⟩ := ha
  obtain ⟨k, hk, hk', hb⟩ := hb
  rw [hkey] at hb
  rw [ha, hb]
  exact Positional.lt_iff_value_lt isDigits (isDigit_js_decimal _) (isDigit_js_decimal _) (length_token _ ⟨hj, hj'⟩ ⟨hk, hk'⟩)

/-! ## The rows -/

theorem hasHashShape_eq (hash : JsString) : hasHashShape hash = decide (IsHexHash hash) := by
  have hunit : ∀ u : UInt16, ((48 ≤ u && u ≤ 57) || (97 ≤ u && u ≤ 102)) = true ↔ u ∈ js "0123456789abcdef".toList := by
    intro u
    have hlist : js "0123456789abcdef".toList = [48, 49, 50, 51, 52, 53, 54, 55, 56, 57, 97, 98, 99, 100, 101, 102] := rfl
    rw [hlist]
    simp only [Bool.or_eq_true, Bool.and_eq_true, decide_eq_true_eq, List.mem_cons, List.not_mem_nil, or_false,
      UInt16.le_iff_toNat_le, ← UInt16.toNat_inj]
    simp only [UInt16.reduceToNat]
    omega
  rw [Bool.eq_iff_iff, hasHashShape, Bool.and_eq_true, decide_eq_true_eq, decide_eq_true_eq, List.all_eq_true, IsHexHash]
  exact and_congr_right fun _ => forall₂_congr fun u _ => hunit u

/-- The listed operation of a transaction with the smallest number, if one is listed. -/
def IsPrimary (ops : List OperationRecord) (hash : JsString) : Option OperationRecord → Prop :=
  IsLeastOf OperationRecord.transactionHash (fun op => numberOf op.pagingToken) ops hash

theorem isPrimary_foldl {place : JsString → Place} {ops : List OperationRecord} (h : ∀ op ∈ ops, IsPaged place op) (hash : JsString) :
    IsPrimary ops hash (ops.foldl keepFirst (fun _ => none) hash) :=
  isLeastOf_foldl (fun a ha b hb hkey => by rw [decide_eq_true_eq]; exact pagingToken_lt_iff (h a ha) (h b hb) hkey) hash

theorem buildActivityRows_eq {Detail : Type} (txs : List (TxRecord Detail)) (ops : List OperationRecord) :
    buildActivityRows txs ops = (txs.filter fun tx => decide (IsHexHash tx.hash)).map fun tx =>
      ⟨tx, (ops.foldl keepFirst (fun _ => none) tx.hash).map presentOperation⟩ := by
  simp only [buildActivityRows, hasHashShape_eq]

/-- The rows are the transactions whose hash is one, in their order, each with what its listed operation with the smallest number shows,
in whatever order the operations are listed and whichever are missing. -/
theorem activityRows_primary {Detail : Type} (place : JsString → Place) (txs : List (TxRecord Detail)) (ops : List OperationRecord)
    (h : ∀ op ∈ ops, IsPaged place op) :
    (∃ primary : JsString → Option OperationRecord, (∀ hash, IsPrimary ops hash (primary hash)) ∧
        buildActivityRows txs ops =
          (txs.filter fun tx => decide (IsHexHash tx.hash)).map fun tx => ⟨tx, (primary tx.hash).map presentOperation⟩) ∧
      ((∀ a ∈ ops, ∀ b ∈ ops, a.pagingToken = b.pagingToken → a = b) →
        ∀ ops', ops'.Perm ops → buildActivityRows txs ops' = buildActivityRows txs ops) := by
  refine ⟨⟨_, isPrimary_foldl h, buildActivityRows_eq txs ops⟩, fun hunique ops' hperm => ?_⟩
  have hsame : ∀ hash, ops'.foldl keepFirst (fun _ => none) hash = ops.foldl keepFirst (fun _ => none) hash := by
    intro hash
    have hprimary' := isPrimary_foldl (fun op hop => h op (hperm.mem_iff.mp hop)) hash
    refine ((isPrimary_foldl h hash).unique hprimary' (fun op => hperm.mem_iff.symm) ?_).symm
    -- a number names one token, and a token one operation
    intro a ha b hb _ hnumber
    obtain ⟨j, -, -, htoken⟩ := h a ha
    obtain ⟨k, -, -, htoken'⟩ := h b hb
    refine hunique a ha b hb ?_
    rw [htoken, htoken'] at hnumber ⊢
    rw [numberOf_js_decimal, numberOf_js_decimal] at hnumber
    rw [hnumber]
  rw [buildActivityRows_eq, buildActivityRows_eq]
  simp only [hsame]

/-- The first transaction of the first ledger. -/
def firstPlace : Place := ⟨1, 0, by decide, by decide, by decide⟩

/-- An operation of the first transaction that shows no more than its type. -/
def firstOperation (k : Nat) (type : JsString) : OperationRecord where
  pagingToken := js (decimal (firstPlace.token k))
  transactionHash := js (List.replicate 64 'a')
  type := type
  sourceAccount := []
  fromAccount := none
  toAccount := none
  amount := none
  assetType := none
  assetCode := none
  assetIssuer := none
  funder := none
  account := none
  startingBalance := none
  into := none
  address := none
  function := none
  parameters := none
  assetBalanceChanges := none
  sellingAssetType := none
  sellingAssetCode := none
  sellingAssetIssuer := none
  buyingAssetType := none
  buyingAssetCode := none
  buyingAssetIssuer := none
  trustor := none
  trustee := none
  asset := none
  limit := none
  price := none
  sourceAmount := none
  sourceAssetType := none
  sourceAssetCode := none
  sourceAssetIssuer := none
  path := none

/-- The ninth operation and the tenth, listed in either order. -/
theorem activityRows_primary_two :
    buildActivityRows [⟨js (List.replicate 64 'a'), ()⟩] [firstOperation 10 (lit "inflation"), firstOperation 9 (lit "payment")] =
      buildActivityRows [⟨js (List.replicate 64 'a'), ()⟩] [firstOperation 9 (lit "payment"), firstOperation 10 (lit "inflation")] := by
  refine (activityRows_primary (fun _ => firstPlace) _ _ ?_).2 ?_ _ (List.Perm.swap _ _ _)
  · intro op hop
    rcases List.mem_pair.mp hop with rfl | rfl
    · exact ⟨9, by decide, by decide, rfl⟩
    · exact ⟨10, by decide, by decide, rfl⟩
  · intro a ha b hb htoken
    rcases List.mem_pair.mp ha with rfl | rfl
    · rcases List.mem_pair.mp hb with rfl | rfl
      · rfl
      · exact absurd htoken (by decide)
    · rcases List.mem_pair.mp hb with rfl | rfl
      · exact absurd htoken (by decide)
      · rfl

end Activity

end Soroscan
