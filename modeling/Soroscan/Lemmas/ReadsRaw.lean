import Soroscan.Lemmas.RawVal

/-!
# What the reader takes off

The reader succeeds on bytes exactly when a tree of fields stands in front of them that is shaped as the layout says, not too deep,
and has valid symbols; it takes off the bytes of that tree.
-/

namespace Soroscan

open Reader (Accepts Yields Exactly Parses)

namespace RawVal

/-- What the reader asks of the fields it takes. -/
def Readable (w : RawVal) : Prop := w.Shaped ∧ w.Named

/-- A field takes at least the four bytes of its type. -/
theorem four_le_bytes (w : RawVal) : 4 ≤ w.bytes.length := by
  rw [bytes_eq, List.length_append]
  exact Nat.le_add_right 4 _

end RawVal

namespace ScReader

open RawVal

/-! ## The words -/

/-- A word takes four bytes, whatever they are. -/
theorem exactly_u32 : Exactly 4 u32 where
  accepts bs h := by
    obtain ⟨w, rfl⟩ := exists_wordBytes32 h
    exact (parses_u32 w).accepts
  yields := by
    unfold u32
    refine (Reader.exactly_fixed _ 4).yields.bind fun data bs hbs => ?_
    split <;> exact Reader.yields_pure (by rw [List.append_nil, hbs])

/-- The bytes of a word are those of the number that is read. -/
theorem yields_u32 : Yields u32 fun w bs => bs = wordBytes32 w :=
  exactly_u32.yields.parses fun _ bs hbs => by
    obtain ⟨w, rfl⟩ := exists_wordBytes32 hbs
    exact ⟨w, parses_u32 w, rfl⟩

/-- A long word takes eight bytes, whatever they are. -/
theorem exactly_u64 : Exactly 8 u64 := by
  unfold u64
  exact (Reader.exactly_fixed _ 8).bind fun _ => Reader.exactly_pure _

theorem exactly_i64 : Exactly 8 i64 := by
  unfold i64
  exact exactly_u64.bind fun _ => Reader.exactly_pure _

theorem exactly_i32 : Exactly 4 i32 := by
  unfold i32
  exact exactly_u32.bind fun _ => Reader.exactly_pure _

/-- The types of a fixed length take so many bytes, whatever they are. -/
theorem exactly_arm (readItem : Read ScDisplay) {type length : Nat} (h : fixedLength type = some length) :
    Exactly length (readArm readItem type) := by
  unfold fixedLength at h
  split at h <;> cases h <;> unfold readArm
  · exact Reader.exactly_pure _
  · exact Reader.exactly_pure _
  · exact exactly_u32.bind fun _ => Reader.exactly_pure _
  · exact exactly_i32.bind fun _ => Reader.exactly_pure _
  · exact exactly_u64.bind fun _ => Reader.exactly_pure _
  · exact exactly_i64.bind fun _ => Reader.exactly_pure _
  · exact exactly_u64.bind fun _ => Reader.exactly_pure _
  · exact exactly_u64.bind fun _ => Reader.exactly_pure _
  · exact exactly_i64.bind fun _ => Reader.exactly_pure _
  · exact exactly_u64.bind fun _ => exactly_u64.bind fun _ => Reader.exactly_pure _
  · exact exactly_i64.bind fun _ => exactly_u64.bind fun _ => Reader.exactly_pure _
  · exact exactly_u64.bind fun _ => exactly_u64.bind fun _ => exactly_u64.bind fun _ => exactly_u64.bind fun _ =>
      Reader.exactly_pure _
  · exact exactly_i64.bind fun _ => exactly_u64.bind fun _ => exactly_u64.bind fun _ => exactly_u64.bind fun _ =>
      Reader.exactly_pure _

/-! ## The pieces -/

/-- A byte string with whatever fills it up. -/
theorem parses_padded {data padding : Bytes} (hlength : data.length < 2 ^ 32)
    (hpadding : padding.length = (4 - data.length % 4) % 4) :
    Parses opaqueData (countBytes data.length ++ (data ++ padding)) (some data) := by
  unfold opaqueData countBytes
  refine (parses_u32 _).bind ?_
  simp only [toNat_uint32_of_lt hlength]
  refine Reader.parses_left fun n hn => ?_
  rw [List.length_append] at hn
  rw [if_neg (by omega)]
  refine (parses_fixed rfl).bind ?_
  exact (parses_fixed hpadding).map fun _ => data

/-- What is read as a byte string stands behind its length, with padding behind it. -/
theorem yields_opaqueData : Yields opaqueData fun data bs =>
    ∃ padding, data.length < 2 ^ 32 ∧ padding.length = (4 - data.length % 4) % 4 ∧
      bs = countBytes data.length ++ (data ++ padding) := by
  unfold opaqueData
  refine yields_u32.bind ?_
  rintro word _ rfl
  refine Reader.yields_left fun left => ?_
  dsimp only
  split
  · exact Reader.yields_throw _ _
  · refine (Reader.yields_fixed _ _).bind ?_
    rintro _ data ⟨rfl, hdata⟩
    refine (Reader.yields_fixed _ _).bind ?_
    rintro _ padding ⟨rfl, hpadding⟩
    refine Reader.yields_pure ⟨padding, hdata ▸ word.isLt, hdata ▸ hpadding, ?_⟩
    rw [hdata, countBytes, uint32_toNat, List.append_nil]

/-- A symbol is read whatever its padding is. -/
theorem parses_paddedSymbol {data padding : Bytes} (hlength : data.length < 2 ^ 32)
    (hpadding : padding.length = (4 - data.length % 4) % 4) (hsymbol : validSymbol data = true) :
    Parses readSymbol (countBytes data.length ++ (data ++ padding)) (some (fromCharCode data)) := by
  unfold readSymbol
  rw [← List.append_nil (countBytes _ ++ _)]
  refine (parses_padded hlength hpadding).bind ?_
  rw [hsymbol]
  exact Reader.parses_pure _

/-- What is read as a symbol is a valid one. -/
theorem yields_symbol : Yields readSymbol fun _ bs =>
    ∃ data padding, data.length < 2 ^ 32 ∧ padding.length = (4 - data.length % 4) % 4 ∧ validSymbol data = true ∧
      bs = countBytes data.length ++ (data ++ padding) := by
  unfold readSymbol
  refine yields_opaqueData.bind ?_
  rintro data _ ⟨padding, hlength, hpadding, rfl⟩
  cases hsymbol : validSymbol data
  · exact Reader.yields_throw _ _
  · exact Reader.yields_pure ⟨data, padding, hlength, hpadding, hsymbol, List.append_nil _⟩

/-- Any two words are read as an error. -/
theorem accepts_error (type code : BitVec 32) : Accepts readError (wordBytes32 type ++ wordBytes32 code) := by
  unfold readError
  refine (parses_u32 type).bind_accepts ?_
  rw [← List.append_nil (wordBytes32 code)]
  refine (parses_u32 code).bind_accepts ?_
  split <;> exact Reader.accepts_pure _

/-- What is read as an error are two words. -/
theorem yields_error : Yields readError fun _ bs => ∃ type code, bs = wordBytes32 type ++ wordBytes32 code := by
  unfold readError
  refine yields_u32.bind ?_
  rintro type _ rfl
  refine yields_u32.bind ?_
  rintro code _ rfl
  split <;> exact Reader.yields_pure ⟨type, code, by rw [List.append_nil]⟩

/-- What is read as an address is one. -/
theorem yields_address : Yields readAddress fun _ bs => ∃ a : ScAddress, bs = a.toXdr := by
  have hkind : ∀ {kind : BitVec 32} {n : Nat}, kind.toNat = n → kind = BitVec.ofNat 32 n := by
    rintro kind _ rfl
    exact (uint32_toNat kind).symm
  unfold readAddress
  refine yields_u32.bind ?_
  rintro kind _ rfl
  split
  · next h =>
    obtain rfl := hkind h
    refine yields_u32.bind ?_
    rintro key _ rfl
    split
    · exact Reader.yields_throw _ _
    · next hkey =>
      obtain rfl : key = 0 := not_not.mp hkey
      refine (Reader.yields_fixed _ _).bind ?_
      rintro _ data ⟨rfl, hdata⟩
      exact Reader.yields_pure ⟨.account ⟨data, hdata⟩, by rw [List.append_nil]; rfl⟩
  · next h =>
    obtain rfl := hkind h
    refine (Reader.yields_fixed _ _).bind ?_
    rintro _ data ⟨rfl, hdata⟩
    exact Reader.yields_pure ⟨.contract ⟨data, hdata⟩, by rw [List.append_nil]; rfl⟩
  · next h =>
    obtain rfl := hkind h
    refine (Reader.yields_fixed _ _).bind ?_
    rintro _ id ⟨rfl, hid⟩
    obtain ⟨id, rfl⟩ := exists_wordBytes hid
    refine (Reader.yields_fixed _ _).bind ?_
    rintro _ data ⟨rfl, hdata⟩
    exact Reader.yields_pure ⟨.muxed id ⟨data, hdata⟩, by rw [List.append_nil]; rfl⟩
  · next h =>
    obtain rfl := hkind h
    refine yields_u32.bind ?_
    rintro type _ rfl
    split
    · exact Reader.yields_throw _ _
    · next htype =>
      obtain rfl : type = 0 := not_not.mp htype
      refine (Reader.yields_fixed _ _).bind ?_
      rintro _ data ⟨rfl, hdata⟩
      exact Reader.yields_pure ⟨.claimableBalance ⟨data, hdata⟩, by rw [List.append_nil]; rfl⟩
  · next h =>
    obtain rfl := hkind h
    refine (Reader.yields_fixed _ _).bind ?_
    rintro _ data ⟨rfl, hdata⟩
    exact Reader.yields_pure ⟨.liquidityPool ⟨data, hdata⟩, by rw [List.append_nil]; rfl⟩
  · exact Reader.yields_throw _ _

/-- What is read as the flag of an optional value is 0 or 1. -/
theorem yields_presence : Yields readPresence fun flag bs => bs = wordBytes32 (if flag then 1 else 0) := by
  unfold readPresence
  refine yields_u32.bind ?_
  rintro word _ rfl
  dsimp only
  split
  · exact Reader.yields_throw _ _
  · next h =>
    obtain h0 | h1 : word.toNat = 0 ∨ word.toNat = 1 := by omega
    · obtain rfl : word = 0 := BitVec.eq_of_toNat_eq h0
      exact Reader.yields_pure rfl
    · obtain rfl : word = 1 := BitVec.eq_of_toNat_eq h1
      exact Reader.yields_pure rfl

/-- A count is read if so many words are left. -/
theorem accepts_count {β : Type} {f : Nat → Read β} {n : Nat} {ys : Bytes} (hn : n < 2 ^ 32) (hys : 4 * n ≤ ys.length)
    (hf : Accepts (f n) ys) : Accepts (readCount >>= f) (countBytes n ++ ys) := by
  unfold readCount countBytes
  rw [bind_assoc]
  refine (parses_u32 _).bind_accepts ?_
  simp only [toNat_uint32_of_lt hn, bind_assoc]
  refine Reader.accepts_left fun left hleft => ?_
  rw [if_neg (by omega), pure_bind]
  exact hf

/-- What is read as a count is its word. -/
theorem yields_count : Yields readCount fun n bs => n < 2 ^ 32 ∧ bs = countBytes n := by
  unfold readCount
  refine yields_u32.bind ?_
  rintro word _ rfl
  refine Reader.yields_left fun left => ?_
  dsimp only
  split
  · exact Reader.yields_throw _ _
  · exact Reader.yields_pure ⟨word.isLt, by rw [List.append_nil, countBytes, uint32_toNat]⟩

/-! ## The values with parts -/

section

variable {readItem : Read ScDisplay} {P : RawVal → Prop}

/-- A vector is read if each of its items is. -/
theorem accepts_vecItems {items : List RawVal} (hsize : items.length < 2 ^ 32) (h : ∀ w ∈ items, Accepts readItem w.bytes) :
    Accepts (readVecItems readItem) (countBytes items.length ++ items.flatMap RawVal.bytes) :=
  accepts_count hsize (ScVal.four_mul_le_flatMap four_le_bytes items) (Reader.accepts_many h)

/-- What is read as a vector are its items behind their count. -/
theorem yields_vecItems (h : Yields readItem fun _ bs => ∃ w, P w ∧ bs = w.bytes) :
    Yields (readVecItems readItem) fun _ bs => ∃ items : List RawVal,
      items.length < 2 ^ 32 ∧ (∀ w ∈ items, P w) ∧ bs = countBytes items.length ++ items.flatMap RawVal.bytes := by
  refine yields_count.bind ?_
  rintro _ _ ⟨hsize, rfl⟩
  refine (Reader.yields_many h _).mono ?_
  rintro _ _ ⟨items, rfl, hitems, rfl⟩
  exact ⟨items, hsize, hitems, rfl⟩

/-- A map is read if its keys and values are. -/
theorem accepts_mapEntries {entries : List (RawVal × RawVal)} (hsize : entries.length < 2 ^ 32)
    (h : ∀ w ∈ entries.flatMap fun e => [e.1, e.2], Accepts readItem w.bytes) :
    Accepts (readMapEntries readItem) (countBytes entries.length ++ entries.flatMap entryBytes) := by
  have hfour : ∀ e, 4 ≤ (entryBytes e).length := by
    intro e
    rw [entryBytes, List.length_append]
    exact le_add_right (four_le_bytes e.1)
  refine accepts_count hsize (ScVal.four_mul_le_flatMap hfour entries) (Reader.accepts_many fun e he => ?_)
  refine (h e.1 (List.mem_flatMap.mpr ⟨e, he, List.mem_cons_self⟩)).bind fun key => ?_
  exact (h e.2 (List.mem_flatMap.mpr ⟨e, he, List.mem_cons_of_mem _ List.mem_cons_self⟩)).map _

/-- What is read as a map are its entries behind their count. -/
theorem yields_mapEntries (h : Yields readItem fun _ bs => ∃ w, P w ∧ bs = w.bytes) :
    Yields (readMapEntries readItem) fun _ bs => ∃ entries : List (RawVal × RawVal),
      entries.length < 2 ^ 32 ∧ (∀ w ∈ entries.flatMap fun e => [e.1, e.2], P w) ∧
        bs = countBytes entries.length ++ entries.flatMap entryBytes := by
  have hentry : Yields (readItem >>= fun key => readItem >>= fun value => pure (key, value)) fun _ bs =>
      ∃ e : RawVal × RawVal, (P e.1 ∧ P e.2) ∧ bs = entryBytes e := by
    refine h.bind ?_
    rintro _ _ ⟨key, hkey, rfl⟩
    refine h.bind ?_
    rintro _ _ ⟨value, hvalue, rfl⟩
    exact Reader.yields_pure ⟨(key, value), ⟨hkey, hvalue⟩, by rw [List.append_nil]; rfl⟩
  refine yields_count.bind ?_
  rintro _ _ ⟨hsize, rfl⟩
  refine (Reader.yields_many hentry _).mono ?_
  rintro _ _ ⟨entries, rfl, hentries, rfl⟩
  refine ⟨entries, hsize, fun w hw => ?_, rfl⟩
  obtain ⟨e, he, hmem⟩ := List.mem_flatMap.mp hw
  obtain rfl | rfl : w = e.1 ∨ w = e.2 := by simpa using hmem
  · exact (hentries e he).1
  · exact (hentries e he).2

/-- The executable of an instance, whatever its kind. -/
theorem accepts_executable {β : Type} {p : Read β} {kind : BitVec 32} {hash ys : Bytes} (hhash : hash.length = hashLength kind)
    (hp : Accepts p ys) :
    Accepts (u32 >>= fun kind => if kind = 0 then fixed 32 >>= fun _ => p else p) (wordBytes32 kind ++ (hash ++ ys)) := by
  refine (parses_u32 kind).bind_accepts ?_
  unfold hashLength at hhash
  split_ifs at hhash ⊢
  · exact (parses_fixed hhash).bind_accepts hp
  · rw [List.length_eq_zero_iff.mp hhash]
    exact hp

/-- What is read behind an executable stands behind its kind and its hash. -/
theorem yields_executable {β : Type} {p : Read β} {Q : Bytes → Prop} (hp : Yields p fun _ bs => Q bs) :
    Yields (u32 >>= fun kind => if kind = 0 then fixed 32 >>= fun _ => p else p) fun _ bs =>
      ∃ kind hash ys, hash.length = hashLength kind ∧ Q ys ∧ bs = wordBytes32 kind ++ (hash ++ ys) := by
  refine yields_u32.bind ?_
  rintro kind _ rfl
  split
  · next h =>
    refine (Reader.yields_fixed _ _).bind ?_
    rintro _ hash ⟨rfl, hhash⟩
    refine hp.mono fun _ ys hys => ⟨kind, hash, ys, ?_, hys, rfl⟩
    rw [hhash, hashLength, if_pos h]
  · next h =>
    refine hp.mono fun _ ys hys => ⟨kind, [], ys, ?_, hys, rfl⟩
    rw [hashLength, if_neg h]
    rfl

end

/-! ## The arms -/

/-- The types without a fixed length. -/
theorem fixedLength_eq_none {type : Nat} (h : fixedLength type = none) :
    type = 0 ∨ type = 2 ∨ type = 13 ∨ type = 14 ∨ type = 15 ∨ type = 16 ∨ type = 17 ∨ type = 18 ∨ type = 19 ∨ 22 ≤ type := by
  by_cases hle : type ≤ 21
  · interval_cases type <;> first | decide | cases h
  · omega

/-- Nothing is read of an unknown type. -/
theorem yields_unknown (readItem : Read ScDisplay) {type : Nat} (h : 22 ≤ type) (P : ScDisplay → Bytes → Prop) :
    Yields (readArm readItem type) P := by
  unfold readArm
  split <;> first | omega | exact Reader.yields_throw _ _

/-- The body of a tree of fields whose parts are accepted. -/
theorem accepts_arm {readItem : Read ScDisplay} {w : RawVal} (hw : w.Readable) (h : ∀ part ∈ w.parts, Accepts readItem part.bytes) :
    Accepts (readArm readItem w.typeWord.toNat) w.body := by
  obtain ⟨hshape, hname⟩ := hw
  cases w with
  | bool word => exact (parses_u32 word).accepts.map _
  | error type code => exact accepts_error type code
  | fixed type data => exact (exactly_arm readItem hshape).accepts data rfl
  | opaqueData type data padding =>
    obtain ⟨rfl | rfl | rfl, hlength, hpadding⟩ := hshape
    · exact (parses_padded hlength hpadding).accepts.map _
    · exact (parses_padded hlength hpadding).accepts.map _
    · exact (parses_paddedSymbol hlength hpadding (hname rfl)).accepts.map _
  | vec items =>
    cases items with
    | none =>
      rw [body, listBytes, ← List.append_nil (wordBytes32 0)]
      exact (parses_presence false).bind_accepts (Reader.accepts_pure _)
    | some items => exact (parses_presence true).bind_accepts ((accepts_vecItems (hshape _ rfl) h).map _)
  | map entries =>
    cases entries with
    | none =>
      rw [body, listBytes, ← List.append_nil (wordBytes32 0)]
      exact (parses_presence false).bind_accepts (Reader.accepts_pure _)
    | some entries => exact (parses_presence true).bind_accepts ((accepts_mapEntries (hshape _ rfl) h).map _)
  | address a => exact (parses_address a).accepts
  | contractInstance kind hash storage =>
    cases storage with
    | none =>
      rw [body, listBytes, ← List.append_nil (wordBytes32 0)]
      exact accepts_executable hshape.1 ((parses_presence false).bind_accepts (Reader.accepts_pure _))
    | some storage =>
      exact accepts_executable hshape.1 ((parses_presence true).bind_accepts ((accepts_mapEntries (hshape.2 _ rfl) h).map _))

/-- What an arm takes off is the body of a tree of fields of its type. -/
theorem yields_arm {readItem : Read ScDisplay} {P : RawVal → Prop} (h : Yields readItem fun _ bs => ∃ w, P w ∧ bs = w.bytes)
    (type : BitVec 32) : Yields (readArm readItem type.toNat) fun _ bs =>
      ∃ w : RawVal, w.typeWord = type ∧ (w.Readable ∧ ∀ part ∈ w.parts, P part) ∧ bs = w.body := by
  have hnone : ∀ part ∈ ([] : List RawVal), P part := fun _ hpart => absurd hpart List.not_mem_nil
  have htype : ∀ {n : Nat}, type.toNat = n → type = BitVec.ofNat 32 n := by
    rintro _ rfl
    exact (uint32_toNat type).symm
  have hreadable : ∀ {data padding : Bytes} {type : BitVec 32}, type = 13 ∨ type = 14 → data.length < 2 ^ 32 →
      padding.length = (4 - data.length % 4) % 4 → (RawVal.opaqueData type data padding).Readable := by
    rintro data padding _ (rfl | rfl) hlength hpadding
    · exact ⟨⟨.inl rfl, hlength, hpadding⟩, fun h15 => absurd h15 (by decide)⟩
    · exact ⟨⟨.inr (.inl rfl), hlength, hpadding⟩, fun h15 => absurd h15 (by decide)⟩
  cases hfixed : fixedLength type.toNat with
  | some length =>
    refine (exactly_arm readItem hfixed).yields.mono fun _ bs hbs => ?_
    refine ⟨.fixed type bs, rfl, ⟨⟨?_, trivial⟩, hnone⟩, rfl⟩
    rw [Shaped, hfixed, hbs]
  | none =>
    obtain h0 | h2 | h13 | h14 | h15 | h16 | h17 | h18 | h19 | h22 := fixedLength_eq_none hfixed
    · obtain rfl := htype h0
      refine yields_u32.bind ?_
      rintro word _ rfl
      exact Reader.yields_pure ⟨.bool word, rfl, ⟨⟨trivial, trivial⟩, hnone⟩, by rw [List.append_nil]; rfl⟩
    · obtain rfl := htype h2
      refine yields_error.mono ?_
      rintro _ _ ⟨errorType, code, rfl⟩
      exact ⟨.error errorType code, rfl, ⟨⟨trivial, trivial⟩, hnone⟩, rfl⟩
    · obtain rfl := htype h13
      refine yields_opaqueData.bind ?_
      rintro data _ ⟨padding, hlength, hpadding, rfl⟩
      exact Reader.yields_pure
        ⟨.opaqueData 13 data padding, rfl, ⟨hreadable (.inl rfl) hlength hpadding, hnone⟩, List.append_nil _⟩
    · obtain rfl := htype h14
      refine yields_opaqueData.bind ?_
      rintro data _ ⟨padding, hlength, hpadding, rfl⟩
      exact Reader.yields_pure
        ⟨.opaqueData 14 data padding, rfl, ⟨hreadable (.inr rfl) hlength hpadding, hnone⟩, List.append_nil _⟩
    · obtain rfl := htype h15
      refine yields_symbol.bind ?_
      rintro _ _ ⟨data, padding, hlength, hpadding, hsymbol, rfl⟩
      exact Reader.yields_pure ⟨.opaqueData 15 data padding, rfl,
        ⟨⟨⟨.inr (.inr rfl), hlength, hpadding⟩, fun _ => hsymbol⟩, hnone⟩, List.append_nil _⟩
    · obtain rfl := htype h16
      refine yields_presence.bind ?_
      rintro flag _ rfl
      cases flag with
      | false =>
        exact Reader.yields_pure ⟨.vec none, rfl, ⟨⟨fun _ hws => (nomatch hws), trivial⟩, hnone⟩, List.append_nil _⟩
      | true =>
        refine (yields_vecItems h).bind ?_
        rintro _ _ ⟨items, hsize, hitems, rfl⟩
        refine Reader.yields_pure ⟨.vec (some items), rfl, ⟨⟨?_, trivial⟩, hitems⟩, by rw [List.append_nil]; rfl⟩
        rintro _ ⟨⟩
        exact hsize
    · obtain rfl := htype h17
      refine yields_presence.bind ?_
      rintro flag _ rfl
      cases flag with
      | false =>
        exact Reader.yields_pure ⟨.map none, rfl, ⟨⟨fun _ hes => (nomatch hes), trivial⟩, hnone⟩, List.append_nil _⟩
      | true =>
        refine (yields_mapEntries h).bind ?_
        rintro _ _ ⟨entries, hsize, hentries, rfl⟩
        refine Reader.yields_pure ⟨.map (some entries), rfl, ⟨⟨?_, trivial⟩, hentries⟩, by rw [List.append_nil]; rfl⟩
        rintro _ ⟨⟩
        exact hsize
    · obtain rfl := htype h18
      refine yields_address.mono ?_
      rintro _ _ ⟨a, rfl⟩
      exact ⟨.address a, rfl, ⟨⟨trivial, trivial⟩, hnone⟩, rfl⟩
    · obtain rfl := htype h19
      have hstorage : Yields (readPresence >>= fun flag => if flag then readMapEntries readItem >>= fun _ =>
          pure (ScDisplay.named .contractInstance) else pure (.named .contractInstance)) fun _ bs =>
          ∃ storage : Option (List (RawVal × RawVal)), (∀ es ∈ storage, es.length < 2 ^ 32) ∧
            (∀ es ∈ storage, ∀ part ∈ es.flatMap fun e => [e.1, e.2], P part) ∧ bs = listBytes entryBytes storage := by
        refine yields_presence.bind ?_
        rintro flag _ rfl
        cases flag with
        | false =>
          exact Reader.yields_pure ⟨none, fun _ hes => (nomatch hes), fun _ hes => (nomatch hes), List.append_nil _⟩
        | true =>
          refine (yields_mapEntries h).bind ?_
          rintro _ _ ⟨entries, hsize, hentries, rfl⟩
          refine Reader.yields_pure ⟨some entries, ?_, ?_, by rw [List.append_nil]; rfl⟩
          · rintro _ ⟨⟩
            exact hsize
          · rintro _ ⟨⟩
            exact hentries
      refine (yields_executable hstorage).mono ?_
      rintro _ _ ⟨kind, hash, _, hhash, ⟨storage, hsize, hparts, rfl⟩, rfl⟩
      refine ⟨.contractInstance kind hash storage, rfl, ⟨⟨⟨hhash, hsize⟩, trivial⟩, ?_⟩, rfl⟩
      cases storage with
      | none => exact hnone
      | some storage => exact hparts storage rfl
    · exact yields_unknown readItem h22 _

/-- What the reader has taken off are the bytes of a tree of fields that is readable and not too deep. -/
theorem yields_readScVal (levels : Nat) : Yields (readScVal levels) fun _ bs => ∃ w, EveryPart Readable levels w ∧ bs = w.bytes := by
  induction levels with
  | zero => exact Reader.yields_throw _ _
  | succ levels ih =>
    unfold readScVal
    refine yields_u32.bind ?_
    rintro type _ rfl
    refine (yields_arm ih type).mono ?_
    rintro _ _ ⟨w, rfl, hw, rfl⟩
    exact ⟨w, hw, (bytes_eq w).symm⟩

/-- The reader takes the bytes of a tree of fields that is readable and not too deep. -/
theorem accepts_readScVal {levels : Nat} {w : RawVal} (hw : EveryPart Readable levels w) :
    Accepts (readScVal levels) w.bytes := by
  induction levels generalizing w with
  | zero => exact hw.elim
  | succ levels ih =>
    unfold readScVal
    rw [bytes_eq]
    exact (parses_u32 _).bind_accepts (accepts_arm hw.1 fun part hpart => ih (hw.2 part hpart))

end ScReader

end Soroscan
