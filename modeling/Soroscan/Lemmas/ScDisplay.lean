import Soroscan.Lib.BigEndian
import Soroscan.ScDisplay
import Soroscan.ToXdr

/-!
# Reading what was written

Every piece of the reader on the bytes of its piece of the layout: it takes exactly these bytes off and returns what was
written, or it fails where the value is one it does not show. `fits` says which values are shown, `display` what they look like.
-/

namespace Soroscan

/-! ## The display form -/

/-- What is shown of a byte string: at most 32 bytes are shown whole, of more the first sixteen and the last. -/
def shownBytes (b : Bytes) : Text :=
  if b.length ≤ 32 then ['0', 'x'] ++ hexText b
  else ['0', 'x'] ++ hexText (b.take 16) ++ ['.', '.', '.'] ++ hexText (b.drop (b.length - 16))

/-- What is shown of a string: its first 120 code units. -/
def shownString (s : Bytes) : JsString :=
  (textDecode s).take 120 ++ if 120 < (textDecode s).length then js ['.', '.', '.'] else []

/-- The name of an error type. -/
def ScErrorType.name : ScErrorType → Text
  | .wasmVm => ['w', 'a', 's', 'm', ' ', 'v', 'm']
  | .context => ['c', 'o', 'n', 't', 'e', 'x', 't']
  | .storage => ['s', 't', 'o', 'r', 'a', 'g', 'e']
  | .object => ['o', 'b', 'j', 'e', 'c', 't']
  | .crypto => ['c', 'r', 'y', 'p', 't', 'o']
  | .events => ['e', 'v', 'e', 'n', 't', 's']
  | .budget => ['b', 'u', 'd', 'g', 'e', 't']
  | .value => ['v', 'a', 'l', 'u', 'e']
  | .auth => ['a', 'u', 't', 'h']

/-- What is shown of an error. -/
def ScError.text : ScError → Text
  | .contract code => ['c', 'o', 'n', 't', 'r', 'a', 'c', 't', ' ', 'e', 'r', 'r', 'o', 'r', ' ', '#'] ++ decimal code.toNat
  | .other type _ => type.name ++ [' ', 'e', 'r', 'r', 'o', 'r']

namespace ScVal

mutual

/-- The display form of a contract value: a number is the decimal of its whole word. -/
def display : ScVal → ScDisplay
  | .bool b => ScReader.text .bool (if b then ['t', 'r', 'u', 'e'] else ['f', 'a', 'l', 's', 'e'])
  | .void => ScReader.text .void ['v', 'o', 'i', 'd']
  | .error e => ScReader.text .err e.text
  | .u32 v => ScReader.text .u32 (decimal v.toNat)
  | .i32 v => ScReader.text .i32 (intDecimal v.toInt)
  | .u64 v => ScReader.text .u64 (decimal v.toNat)
  | .i64 v => ScReader.text .i64 (intDecimal v.toInt)
  | .timepoint v => ScReader.text .time (decimal v.toNat)
  | .duration v => ScReader.text .dur (decimal v.toNat)
  | .u128 hi lo => ScReader.text .u128 (decimal (hi ++ lo).toNat)
  | .i128 hi lo => ScReader.text .i128 (intDecimal (hi ++ lo).toInt)
  | .u256 hiHi hiLo loHi loLo => ScReader.text .u256 (decimal (hiHi ++ hiLo ++ loHi ++ loLo).toNat)
  | .i256 hiHi hiLo loHi loLo => ScReader.text .i256 (intDecimal (hiHi ++ hiLo ++ loHi ++ loLo).toInt)
  | .bytes b => ScReader.text .bytes (shownBytes b)
  | .string s => .text .str (shownString s)
  | .symbol s => .text .sym (ScReader.fromCharCode s)
  | .vec none => .vec []
  | .vec (some items) => .vec (displayItems items)
  | .map none => .map []
  | .map (some entries) => .map (displayEntries entries)
  | .address a => .address (js (addressString a))
  | .contractInstance _ _ => .named .contractInstance
  | .ledgerKeyContractInstance => .named .ledgerKey
  | .ledgerKeyNonce nonce => ScReader.text .nonce (intDecimal nonce.toInt)

/-- What is shown of the items of a vector. -/
def displayItems : List ScVal → List ScDisplay
  | [] => []
  | v :: vs => display v :: displayItems vs

/-- What is shown of the entries of a map. -/
def displayEntries : List (ScVal × ScVal) → List (ScDisplay × ScDisplay)
  | [] => []
  | (k, v) :: es => (display k, display v) :: displayEntries es

end

theorem displayItems_eq (vs : List ScVal) : displayItems vs = vs.map display := by
  induction vs with
  | nil => rfl
  | cons v vs ih => rw [displayItems, ih, List.map_cons]

theorem displayEntries_eq (es : List (ScVal × ScVal)) :
    displayEntries es = es.map fun e => (e.1.display, e.2.display) := by
  induction es with
  | nil => rfl
  | cons e es ih => rw [displayEntries, ih, List.map_cons]

theorem itemsToXdr_eq (vs : List ScVal) : itemsToXdr vs = vs.flatMap toXdr := by
  induction vs with
  | nil => rfl
  | cons v vs ih => rw [itemsToXdr, ih, List.flatMap_cons]

theorem entriesToXdr_eq (es : List (ScVal × ScVal)) : entriesToXdr es = es.flatMap fun e => e.1.toXdr ++ e.2.toXdr := by
  induction es with
  | nil => rfl
  | cons e es ih => rw [entriesToXdr, ih, List.flatMap_cons]

/-! ## Which values are shown -/

/-- A symbol is a valid one. -/
def namesWell : ScVal → Bool
  | .symbol s => ScReader.validSymbol s
  | _ => true

/-- The values that are shown when so many levels may be opened. -/
def fits (levels : Nat) (v : ScVal) : Bool := everyPart namesWell levels v

/-- A value fits when its name is well and its parts fit one level less. -/
theorem fits_succ (levels : Nat) (v : ScVal) : fits (levels + 1) v = (v.namesWell && v.parts.all (fits levels)) := rfl

/-- What is shown of a value when so many levels may be opened. -/
def shown (levels : Nat) (v : ScVal) : Option ScDisplay := if fits levels v then some v.display else none

theorem mapM_if {α β : Type} (p : α → Bool) (f : α → β) (as : List α) :
    (as.mapM fun a => if p a then some (f a) else none) = if as.all p then some (as.map f) else none := by
  induction as with
  | nil => rfl
  | cons a as ih =>
    rw [List.mapM_cons, ih, List.all_cons, List.map_cons]
    cases hp : p a <;> cases hall : as.all p <;> rfl

/-- All items are shown if each of them fits. -/
theorem mapM_shown (levels : Nat) (vs : List ScVal) :
    vs.mapM (shown levels) = if vs.all (fits levels) then some (vs.map display) else none :=
  mapM_if _ _ vs

/-- A value without parts is shown as it is. -/
theorem shown_leaf {v : ScVal} (levels : Nat) (hparts : v.parts = []) (hname : v.namesWell = true) :
    v.shown (levels + 1) = some v.display := by
  unfold shown
  rw [fits_succ, hparts, hname]
  rfl

/-- A value of parts is shown when all of them are. -/
theorem shown_parts {v : ScVal} (levels : Nat) (hname : v.namesWell = true) :
    v.shown (levels + 1) = if v.parts.all (fits levels) then some v.display else none := by
  unfold shown
  rw [fits_succ, hname, Bool.true_and]

/-- A symbol is shown if it is a valid one. -/
theorem shown_symbol (levels : Nat) (s : Bytes) :
    shown (levels + 1) (.symbol s) =
      (if ScReader.validSymbol s then some (ScReader.fromCharCode s) else none).map (ScDisplay.text .sym) := by
  have hname : namesWell (.symbol s) = ScReader.validSymbol s := rfl
  have hparts : (symbol s).parts = [] := rfl
  unfold shown
  rw [fits_succ, hname, hparts]
  cases ScReader.validSymbol s <;> rfl

/-- A value has sized parts. -/
theorem Sized.part {v part : ScVal} (h : v.Sized) (hpart : part ∈ v.parts) : part.Sized :=
  fun _ w hw => h _ w (.part hpart hw)

/-- The bytes of a value fill a word at least. -/
theorem four_le_toXdr (v : ScVal) : 4 ≤ v.toXdr.length := by
  have hword : ∀ w, (wordBytes32 w).length = 4 := fun _ => rfl
  cases v with
  | vec items => cases items <;> simp only [toXdr, List.length_append, hword] <;> omega
  | map entries => cases entries <;> simp only [toXdr, List.length_append, hword] <;> omega
  | contractInstance executable storage => cases storage <;> simp only [toXdr, List.length_append, hword] <;> omega
  | _ => simp only [toXdr, List.length_append, hword]; omega

/-- A list whose items take four bytes each has at least so many bytes. -/
theorem four_mul_le_flatMap {α : Type} {f : α → Bytes} (hf : ∀ a, 4 ≤ (f a).length) (as : List α) :
    4 * as.length ≤ (as.flatMap f).length := by
  induction as with
  | nil => exact le_rfl
  | cons a as ih =>
    have := hf a
    rw [List.flatMap_cons, List.length_append, List.length_cons]
    omega

end ScVal

/-! ## The words -/

namespace ScReader

open Reader (Parses)

/-- The bytes of a fixed length. -/
theorem parses_fixed {count : Nat} {bs : Bytes} (h : bs.length = count) : Parses (fixed count) bs (some bs) :=
  Reader.parses_fixed _ h

/-- Four bytes are a word, if their values are. -/
theorem parses_word {a b c d : UInt8} {w : BitVec 32}
    (h : ((a.toNat * 256 + b.toNat) * 256 + c.toNat) * 256 + d.toNat = w.toNat) : Parses u32 [a, b, c, d] (some w) := by
  have hword : a.toBitVec ++ b.toBitVec ++ c.toBitVec ++ d.toBitVec = w := by
    apply BitVec.eq_of_toNat_eq
    simp only [toNat_append, UInt8.toNat_toBitVec]
    exact h
  have hfixed : Parses (fixed 4) [a, b, c, d] (some [a, b, c, d]) := parses_fixed rfl
  rw [← hword]
  exact hfixed.bind (Reader.parses_pure _)

/-- The number of the bytes of a word. -/
theorem fromBigEndian_wordBytes32 (w : BitVec 32) : fromBigEndian (wordBytes32 w) = w.toNat :=
  @fromBigEndian_bigEndian 4 _ w.isLt

/-- The number of the bytes of a long word. -/
theorem fromBigEndian_wordBytes (w : BitVec 64) : fromBigEndian (wordBytes w) = w.toNat :=
  @fromBigEndian_bigEndian 8 _ w.isLt

theorem fromBigEndian_four (a b c d : UInt8) :
    fromBigEndian [a, b, c, d] = ((a.toNat * 256 + b.toNat) * 256 + c.toNat) * 256 + d.toNat := by
  simp only [fromBigEndian, List.foldl_cons, List.foldl_nil, Nat.zero_mul, Nat.zero_add]

/-- A word is read. -/
theorem parses_u32 (w : BitVec 32) : Parses u32 (wordBytes32 w) (some w) :=
  parses_word ((fromBigEndian_four _ _ _ _).symm.trans (fromBigEndian_wordBytes32 w))

/-- A word is read with its sign. -/
theorem parses_i32 (w : BitVec 32) : Parses i32 (wordBytes32 w) (some w.toInt) := (parses_u32 w).map _

theorem foldl_bytes (bs : Bytes) (n : Nat) :
    bs.foldl (fun value byte => value <<< 8 ||| byte.toNat) n = bs.foldl (fun value byte => value * 256 + byte.toNat) n := by
  induction bs generalizing n with
  | nil => rfl
  | cons b bs ih =>
    have hb : b.toNat < 2 ^ 8 := b.toNat_lt
    rw [List.foldl_cons, List.foldl_cons, ih, ← Nat.shiftLeft_add_eq_or_of_lt hb, Nat.shiftLeft_eq]

/-- A long word is read. -/
theorem parses_u64 (w : BitVec 64) : Parses u64 (wordBytes w) (some w.toNat) := by
  have hfold : (wordBytes w).foldl (fun value byte => value <<< 8 ||| byte.toNat) 0 = w.toNat :=
    (foldl_bytes _ 0).trans (fromBigEndian_wordBytes w)
  rw [← hfold]
  exact (parses_fixed (length_bigEndian 8 w.toNat)).map _

/-- A long word is read with its sign. -/
theorem parses_i64 (w : BitVec 64) : Parses i64 (wordBytes w) (some w.toInt) := by
  have hint : (if 2 ^ 63 ≤ w.toNat then (w.toNat : Int) - two64 else w.toNat) = w.toInt := by
    rw [BitVec.toInt_eq_toNat_cond, two64]
    split_ifs <;> omega
  rw [← hint]
  exact (parses_u64 w).map _

/-! ## The pieces of the reader -/

theorem toNat_uint32_of_lt {n : Nat} (h : n < 2 ^ 32) : (uint32 n).toNat = n := by
  rw [uint32, BitVec.toNat_ofNat, Nat.mod_eq_of_lt h]

/-- A byte string of variable length is read with its padding. -/
theorem parses_opaqueData {b : Bytes} (h : b.length < 2 ^ 32) : Parses opaqueData (opaqueBytes b) (some b) := by
  unfold opaqueData opaqueBytes countBytes
  refine (parses_u32 _).bind ?_
  simp only [toNat_uint32_of_lt h]
  refine Reader.parses_left fun n hn => ?_
  rw [List.length_append] at hn
  rw [if_neg (by omega)]
  refine (parses_fixed rfl).bind ?_
  exact (parses_fixed List.length_replicate).map fun _ => b

/-- The flag of an optional value is read. -/
theorem parses_presence (flag : Bool) : Parses readPresence (wordBytes32 (if flag then 1 else 0)) (some flag) := by
  unfold readPresence
  rw [← List.append_nil (wordBytes32 _)]
  refine (parses_u32 _).bind ?_
  cases flag <;> exact Reader.parses_pure _

/-- The count is accepted when the items behind it fill as many words. -/
theorem parses_count {β : Type} {f : Nat → Read β} {n : Nat} {ys : Bytes} {o : Option β} (hn : n < 2 ^ 32)
    (hys : 4 * n ≤ ys.length) (hf : Parses (f n) ys o) : Parses (readCount >>= f) (countBytes n ++ ys) o := by
  unfold readCount countBytes
  rw [bind_assoc]
  refine (parses_u32 _).bind ?_
  simp only [toNat_uint32_of_lt hn, bind_assoc]
  refine Reader.parses_left fun left hleft => ?_
  rw [if_neg (by omega), pure_bind]
  exact hf

/-- The items of a vector are read when each of them is. -/
theorem parses_vecItems {levels : Nat} {readItem : Read ScDisplay} {items : List ScVal} (hsize : items.length < 2 ^ 32)
    (h : ∀ v ∈ items, Parses readItem v.toXdr (v.shown levels)) :
    Parses (readVecItems readItem) (countBytes items.length ++ ScVal.itemsToXdr items)
      (if items.all (ScVal.fits levels) then some (ScVal.displayItems items) else none) := by
  rw [ScVal.itemsToXdr_eq, ScVal.displayItems_eq, ← ScVal.mapM_shown]
  exact parses_count hsize (ScVal.four_mul_le_flatMap ScVal.four_le_toXdr items) (Reader.parses_many h)

/-- The entries of a map are read when their keys and values are. -/
theorem parses_mapEntries {levels : Nat} {readItem : Read ScDisplay} {entries : List (ScVal × ScVal)}
    (hsize : entries.length < 2 ^ 32)
    (h : ∀ v ∈ entries.flatMap fun e => [e.1, e.2], Parses readItem v.toXdr (v.shown levels)) :
    Parses (readMapEntries readItem) (countBytes entries.length ++ ScVal.entriesToXdr entries)
      (if (entries.flatMap fun e => [e.1, e.2]).all (ScVal.fits levels) then some (ScVal.displayEntries entries)
        else none) := by
  have hall : (entries.flatMap fun e => [e.1, e.2]).all (ScVal.fits levels) =
      entries.all fun e => ScVal.fits levels e.1 && ScVal.fits levels e.2 := by
    rw [List.all_flatMap]
    simp only [List.all_cons, List.all_nil, Bool.and_true]
  have hentry : ∀ e ∈ entries, Parses (readItem >>= fun key => readItem >>= fun value => pure (key, value))
      (e.1.toXdr ++ e.2.toXdr)
      (if ScVal.fits levels e.1 && ScVal.fits levels e.2 then some (e.1.display, e.2.display) else none) := by
    intro e he
    have hkey := h e.1 (List.mem_flatMap.mpr ⟨e, he, List.mem_cons_self⟩)
    have hvalue := h e.2 (List.mem_flatMap.mpr ⟨e, he, List.mem_cons_of_mem _ List.mem_cons_self⟩)
    unfold ScVal.shown at hkey hvalue
    cases hk : ScVal.fits levels e.1
    · rw [hk] at hkey
      exact hkey.bind_none _ _
    · rw [hk] at hkey
      refine Reader.Parses.bind hkey ?_
      cases hv : ScVal.fits levels e.2
      · rw [hv] at hvalue
        exact hvalue.map _
      · rw [hv] at hvalue
        exact hvalue.map _
  rw [ScVal.entriesToXdr_eq, ScVal.displayEntries_eq, hall, ← ScVal.mapM_if]
  refine parses_count hsize ?_ (Reader.parses_many hentry)
  refine ScVal.four_mul_le_flatMap (fun e => ?_) entries
  have := ScVal.four_le_toXdr e.1
  rw [List.length_append]
  omega

/-- An error is read as its text. -/
theorem parses_error (e : ScError) : Parses readError e.toXdr (some (text .err e.text)) := by
  unfold readError
  cases e with
  | contract code =>
    refine (parses_u32 _).bind ?_
    exact (parses_u32 code).map _
  | other type code =>
    refine (parses_u32 _).bind ?_
    cases type <;> exact (parses_u32 _).map _

/-- An address is read as its strkey. -/
theorem parses_address (a : ScAddress) : Parses readAddress a.toXdr (some (.address (js (addressString a)))) := by
  unfold readAddress
  cases a with
  | account ed25519 =>
    refine (parses_u32 _).bind ?_
    refine (parses_u32 _).bind ?_
    exact (parses_fixed ed25519.length_eq).map _
  | contract id =>
    refine (parses_u32 _).bind ?_
    exact (parses_fixed id.length_eq).map _
  | muxed id ed25519 =>
    refine (parses_u32 _).bind ?_
    refine (parses_fixed (length_bigEndian 8 _)).bind ?_
    exact (parses_fixed ed25519.length_eq).map _
  | claimableBalance hash =>
    refine (parses_u32 _).bind ?_
    refine (parses_u32 _).bind ?_
    exact (parses_fixed hash.length_eq).map _
  | liquidityPool id =>
    refine (parses_u32 _).bind ?_
    exact (parses_fixed id.length_eq).map _

/-- A symbol is read if it is a valid one. -/
theorem parses_symbol {s : Bytes} (h : s.length < 2 ^ 32) :
    Parses readSymbol (opaqueBytes s) (if validSymbol s then some (fromCharCode s) else none) := by
  unfold readSymbol
  rw [← List.append_nil (opaqueBytes s)]
  refine (parses_opaqueData h).bind ?_
  cases hs : validSymbol s
  · exact Reader.parses_throw _ _
  · exact Reader.parses_pure _

theorem formatString_eq (s : Bytes) : formatString s = shownString s := by
  unfold formatString shownString maxTextChars
  simp only
  split_ifs with h
  · rfl
  · rw [List.take_of_length_le (by omega), List.append_nil]

/-- A word behind a number moves it up by 64 bits. -/
theorem number_append {m : Nat} (x : BitVec m) (y : BitVec 64) :
    (x.toNat : Int) * two64 + (y.toNat : Int) = ((x ++ y).toNat : Int) := by
  rw [toNat_append, two64]
  push_cast
  rfl

theorem integer_append {m : Nat} (hm : m ≠ 0) (x : BitVec m) (y : BitVec 64) :
    x.toInt * two64 + (y.toNat : Int) = (x ++ y).toInt := (toInt_append hm x y).symm

theorem map_if {α β : Type} (c : Bool) (a : α) (f : α → β) :
    (if c then some (f a) else none) = (if c then some a else none).map f := by
  cases c <;> rfl

/-- The executable of an instance is skipped. -/
theorem parses_executable {β : Type} {p : Read β} {ys : Bytes} {o : Option β} (executable : ContractExecutable)
    (hp : Parses p ys o) :
    Parses (u32 >>= fun kind => if kind = 0 then fixed 32 >>= fun _ => p else p) (executable.toXdr ++ ys) o := by
  cases executable with
  | wasm hash =>
    rw [ContractExecutable.toXdr, List.append_assoc]
    exact (parses_u32 0).bind ((parses_fixed hash.length_eq).bind hp)
  | stellarAsset => exact (parses_u32 1).bind hp

/-- The value of a type, its items read with one level less. -/
theorem parses_arm {levels : Nat} (ih : ∀ v : ScVal, v.Sized → Parses (readScVal levels) v.toXdr (v.shown levels)) (v : ScVal)
    (hv : v.Sized) : Parses (readScVal (levels + 1)) v.toXdr (v.shown (levels + 1)) := by
  have hsize := hv 0 v (.self v)
  have hparts : ∀ part ∈ v.parts, Parses (readScVal levels) part.toXdr (part.shown levels) :=
    fun part hpart => ih part (hv.part hpart)
  unfold readScVal
  cases v with
  | bool b =>
    rw [ScVal.shown_leaf levels rfl rfl]
    refine (parses_u32 _).bind ?_
    cases b <;> exact (parses_u32 _).map _
  | void =>
    rw [ScVal.shown_leaf levels rfl rfl]
    exact (parses_u32 _).bind (Reader.parses_pure _)
  | error e =>
    rw [ScVal.shown_leaf levels rfl rfl]
    exact (parses_u32 _).bind (parses_error e)
  | u32 v =>
    rw [ScVal.shown_leaf levels rfl rfl]
    exact (parses_u32 _).bind ((parses_u32 v).map _)
  | i32 v =>
    rw [ScVal.shown_leaf levels rfl rfl]
    exact (parses_u32 _).bind ((parses_i32 v).map _)
  | u64 v =>
    rw [ScVal.shown_leaf levels rfl rfl]
    exact (parses_u32 _).bind ((parses_u64 v).map _)
  | i64 v =>
    rw [ScVal.shown_leaf levels rfl rfl]
    exact (parses_u32 _).bind ((parses_i64 v).map _)
  | timepoint v =>
    rw [ScVal.shown_leaf levels rfl rfl]
    exact (parses_u32 _).bind ((parses_u64 v).map _)
  | duration v =>
    rw [ScVal.shown_leaf levels rfl rfl]
    exact (parses_u32 _).bind ((parses_u64 v).map _)
  | u128 hi lo =>
    have hnumber : ScVal.display (.u128 hi lo) = text .u128 (intDecimal (hi.toNat * two64 + lo.toNat)) := by
      rw [number_append]
      rfl
    rw [ScVal.shown_leaf levels rfl rfl, hnumber]
    exact (parses_u32 _).bind ((parses_u64 hi).bind ((parses_u64 lo).map _))
  | i128 hi lo =>
    have hnumber : ScVal.display (.i128 hi lo) = text .i128 (intDecimal (hi.toInt * two64 + lo.toNat)) := by
      rw [integer_append (by decide)]
      rfl
    rw [ScVal.shown_leaf levels rfl rfl, hnumber]
    exact (parses_u32 _).bind ((parses_i64 hi).bind ((parses_u64 lo).map _))
  | u256 hiHi hiLo loHi loLo =>
    have hnumber : ScVal.display (.u256 hiHi hiLo loHi loLo) =
        text .u256 (intDecimal (((hiHi.toNat * two64 + hiLo.toNat) * two64 + loHi.toNat) * two64 + loLo.toNat)) := by
      rw [number_append, number_append, number_append]
      rfl
    rw [ScVal.shown_leaf levels rfl rfl, hnumber]
    exact (parses_u32 _).bind ((parses_u64 hiHi).bind ((parses_u64 hiLo).bind ((parses_u64 loHi).bind ((parses_u64 loLo).map _))))
  | i256 hiHi hiLo loHi loLo =>
    have hnumber : ScVal.display (.i256 hiHi hiLo loHi loLo) =
        text .i256 (intDecimal (((hiHi.toInt * two64 + hiLo.toNat) * two64 + loHi.toNat) * two64 + loLo.toNat)) := by
      rw [integer_append (by decide), integer_append (by decide), integer_append (by decide)]
      rfl
    rw [ScVal.shown_leaf levels rfl rfl, hnumber]
    exact (parses_u32 _).bind ((parses_i64 hiHi).bind ((parses_u64 hiLo).bind ((parses_u64 loHi).bind ((parses_u64 loLo).map _))))
  | bytes b =>
    rw [ScVal.shown_leaf levels rfl rfl]
    exact (parses_u32 _).bind ((parses_opaqueData (of_decide_eq_true hsize)).map _)
  | string s =>
    rw [ScVal.shown_leaf levels rfl rfl, ScVal.display, ← formatString_eq]
    exact (parses_u32 _).bind ((parses_opaqueData (of_decide_eq_true hsize)).map _)
  | symbol s =>
    rw [ScVal.shown_symbol]
    exact (parses_u32 _).bind ((parses_symbol (of_decide_eq_true hsize)).map _)
  | address a =>
    rw [ScVal.shown_leaf levels rfl rfl]
    exact (parses_u32 _).bind (parses_address a)
  | ledgerKeyContractInstance =>
    rw [ScVal.shown_leaf levels rfl rfl]
    exact (parses_u32 _).bind (Reader.parses_pure _)
  | ledgerKeyNonce nonce =>
    rw [ScVal.shown_leaf levels rfl rfl]
    exact (parses_u32 _).bind ((parses_i64 nonce).map _)
  | vec items =>
    cases items with
    | none =>
      rw [ScVal.shown_leaf levels rfl rfl]
      exact (parses_u32 _).bind ((parses_presence false).bind (Reader.parses_pure _))
    | some items =>
      rw [ScVal.shown_parts levels rfl, ScVal.display, map_if]
      exact (parses_u32 _).bind ((parses_presence true).bind ((parses_vecItems (of_decide_eq_true hsize) hparts).map _))
  | map entries =>
    cases entries with
    | none =>
      rw [ScVal.shown_leaf levels rfl rfl]
      exact (parses_u32 _).bind ((parses_presence false).bind (Reader.parses_pure _))
    | some entries =>
      rw [ScVal.shown_parts levels rfl, ScVal.display, map_if]
      exact (parses_u32 _).bind ((parses_presence true).bind ((parses_mapEntries (of_decide_eq_true hsize) hparts).map _))
  | contractInstance executable storage =>
    cases storage with
    | none =>
      rw [ScVal.shown_leaf levels rfl rfl]
      exact (parses_u32 _).bind (parses_executable executable ((parses_presence false).bind (Reader.parses_pure _)))
    | some storage =>
      have hshown := map_if ((storage.flatMap fun e => [e.1, e.2]).all (ScVal.fits levels)) (ScVal.displayEntries storage)
        fun _ => ScDisplay.named .contractInstance
      rw [ScVal.shown_parts levels rfl]
      refine (parses_u32 _).bind ?_
      rw [ScVal.display]
      exact hshown ▸ (parses_executable executable
        ((parses_presence true).bind ((parses_mapEntries (of_decide_eq_true hsize) hparts).map _)))

/-- A value is shown, or refused, and exactly its bytes are taken off. -/
theorem parses_readScVal (levels : Nat) (v : ScVal) (hv : v.Sized) : Parses (readScVal levels) v.toXdr (v.shown levels) := by
  induction levels generalizing v with
  | zero => exact Reader.parses_throw _ _
  | succ levels ih => exact parses_arm ih v hv

end ScReader

/-- What is shown of the bytes of a value. -/
theorem decodeScVal_b64 {v : ScVal} (hv : v.Sized) : decodeScVal v.b64 = v.shown (maxDepth + 1) := by
  unfold decodeScVal bytesOf ScVal.b64
  rw [Base64.atob_encode, Option.bind_some]
  exact (ScReader.parses_readScVal (maxDepth + 1) v hv).run

end Soroscan
