import Soroscan.Signatures
import Soroscan.Lemmas.RawVal

/-!
# Hints and signatures

The parse of an envelope's tail succeeds exactly when the envelope ends in a vector of decorated signatures whose signatures are
the expected ones, whatever fills them up to words; what it returns are the hints of that vector.
-/

namespace Soroscan

namespace Signatures

/-! ## Words -/

/-- Four bytes that are shifted and joined make the number they are the digits of. -/
theorem join_bytes (a : Nat) {b c d : Nat} (hb : b < 2 ^ 8) (hc : c < 2 ^ 8) (hd : d < 2 ^ 8) :
    a <<< 24 ||| b <<< 16 ||| c <<< 8 ||| d = ((a * 256 + b) * 256 + c) * 256 + d := by
  have hfirst : a <<< 24 ||| b <<< 16 = (a * 256 + b) <<< 16 := by
    rw [← Nat.shiftLeft_add_eq_or_of_lt (by rw [Nat.shiftLeft_eq]; omega), Nat.shiftLeft_eq, Nat.shiftLeft_eq, Nat.shiftLeft_eq]
    omega
  have hsecond : (a * 256 + b) <<< 16 ||| c <<< 8 = ((a * 256 + b) * 256 + c) <<< 8 := by
    rw [← Nat.shiftLeft_add_eq_or_of_lt (by rw [Nat.shiftLeft_eq]; omega), Nat.shiftLeft_eq, Nat.shiftLeft_eq, Nat.shiftLeft_eq]
    omega
  rw [hfirst, hsecond, ← Nat.shiftLeft_add_eq_or_of_lt hd, Nat.shiftLeft_eq]

/-- The number at a position where a word stands. -/
theorem u32At_of_drop {bytes : Bytes} {pos : Nat} {w : BitVec 32} {rest : Bytes} (h : bytes.drop pos = wordBytes32 w ++ rest) :
    u32At bytes pos = w.toNat := by
  have hbyte : ∀ i, byteAt bytes (pos + i) = ((wordBytes32 w ++ rest).getD i 0).toNat := by
    intro i
    rw [byteAt, ← h, List.getD_eq_getElem?_getD, List.getD_eq_getElem?_getD, List.getElem?_drop]
  have hlt : ∀ i, byteAt bytes (pos + i) < 2 ^ 8 := fun i => UInt8.toNat_lt _
  rw [u32At, join_bytes _ (hlt 1) (hlt 2) (hlt 3), show byteAt bytes pos = _ from hbyte 0, hbyte 1, hbyte 2, hbyte 3]
  exact (ScReader.fromBigEndian_four _ _ _ _).symm.trans (ScReader.fromBigEndian_wordBytes32 w)

theorem drop_eq_take_append (bytes : Bytes) (pos n : Nat) : bytes.drop pos = (bytes.drop pos).take n ++ bytes.drop (pos + n) := by
  rw [← List.drop_drop, List.take_append_drop]

/-- Where a number is read, the bytes of its word stand, if there are as many. -/
theorem drop_of_u32At {bytes : Bytes} {pos n : Nat} (hlength : 4 ≤ (bytes.drop pos).length) (h : u32At bytes pos = n) :
    n < 2 ^ 32 ∧ bytes.drop pos = countBytes n ++ bytes.drop (pos + 4) := by
  obtain ⟨w, hw⟩ := RawVal.exists_wordBytes32 (show ((bytes.drop pos).take 4).length = 4 by rw [List.length_take]; omega)
  have hsplit : bytes.drop pos = wordBytes32 w ++ bytes.drop (pos + 4) := hw ▸ drop_eq_take_append bytes pos 4
  rw [u32At_of_drop hsplit] at h
  subst h
  exact ⟨w.isLt, by rw [countBytes, RawVal.uint32_toNat]; exact hsplit⟩

theorem sameBytes_iff {a b : Bytes} : sameBytes a b = true ↔ a = b := by
  unfold sameBytes
  constructor
  · intro h
    split at h
    · cases h
    · next hlength =>
      rw [ne_eq, not_not] at hlength
      refine List.ext_getElem? fun i => ?_
      by_cases hi : i < a.length
      · exact of_decide_eq_true (List.all_eq_true.mp h i (List.mem_range.mpr hi))
      · rw [List.getElem?_eq_none (by omega), List.getElem?_eq_none (by omega)]
  · rintro rfl
    rw [if_neg (not_not.mpr rfl)]
    exact List.all_eq_true.mpr fun i _ => decide_eq_true rfl

/-! ## Vectors -/

/-- A decorated signature with the bytes that fill it up to words. -/
structure SignatureFields extends XdrDecoratedSignature where
  padding : Bytes
  padding_length : padding.length = (4 - signature.length % 4) % 4

namespace SignatureFields

def bytes (f : SignatureFields) : Bytes := f.hint ++ (countBytes f.signature.length ++ (f.signature ++ f.padding))

theorem bytes_length (f : SignatureFields) : f.bytes.length = 8 + padded f.signature.length := by
  rw [bytes, List.length_append, List.length_append, List.length_append, f.hint_length, f.padding_length, padded]
  show 4 + (4 + _) = _
  omega

/-- What is returned for a decorated signature, with the text of its signature. -/
def shown (f : SignatureFields) (signature : Text) : DecoratedSignature := ⟨hexOf f.hint, signature⟩

end SignatureFields

/-- What the loop reads where the bytes of a decorated signature stand. -/
theorem reads_fields {envelope : Bytes} {pos : Nat} {f : SignatureFields} {rest : Bytes}
    (hsize : f.signature.length < 2 ^ 32) (h : envelope.drop pos = f.bytes ++ rest) :
    (envelope.drop pos).take 4 = f.hint ∧ u32At envelope (pos + 4) = f.signature.length ∧
      (envelope.drop (pos + 8)).take f.signature.length = f.signature ∧
      envelope.drop (pos + 8 + padded f.signature.length) = rest := by
  have hhint : envelope.drop pos = f.hint ++ (countBytes f.signature.length ++ (f.signature ++ f.padding ++ rest)) := by
    rw [h, SignatureFields.bytes]
    simp only [List.append_assoc]
  have hword : envelope.drop (pos + 4) = countBytes f.signature.length ++ (f.signature ++ f.padding ++ rest) := by
    rw [← List.drop_drop, hhint, List.drop_left' f.hint_length]
  have hbody : envelope.drop (pos + 8) = f.signature ++ (f.padding ++ rest) := by
    rw [show pos + 8 = pos + 4 + 4 from rfl, ← List.drop_drop, hword, List.append_assoc]
    exact List.drop_left' rfl
  refine ⟨?_, ?_, ?_, ?_⟩
  · rw [hhint, List.take_left' f.hint_length]
  · rw [u32At_of_drop hword, ScReader.toNat_uint32_of_lt hsize]
  · rw [hbody, List.take_left' rfl]
  · rw [Nat.add_assoc, ← List.drop_drop, h]
    exact List.drop_left' f.bytes_length

/-- The bytes of a decorated signature stand where the loop reads its length and its signature. -/
theorem fields_of_reads {envelope : Bytes} {pos : Nat} {signature : Bytes}
    (hlength : 8 + padded signature.length ≤ (envelope.drop pos).length) (hword : u32At envelope (pos + 4) = signature.length)
    (hbody : (envelope.drop (pos + 8)).take signature.length = signature) :
    ∃ f : SignatureFields, f.signature = signature ∧ f.signature.length < 2 ^ 32 ∧ (envelope.drop pos).take 4 = f.hint ∧
      envelope.drop pos = f.bytes ++ envelope.drop (pos + 8 + padded signature.length) := by
  have hpadded : padded signature.length = signature.length + (4 - signature.length % 4) % 4 := rfl
  rw [List.length_drop] at hlength
  obtain ⟨hsize, hcount⟩ := drop_of_u32At (by rw [List.length_drop]; omega) hword
  refine ⟨⟨⟨(envelope.drop pos).take 4, signature, ?_⟩,
    (envelope.drop (pos + 8 + signature.length)).take ((4 - signature.length % 4) % 4), ?_⟩, rfl, hsize, rfl, ?_⟩
  · rw [List.length_take, List.length_drop]
    omega
  · rw [List.length_take, List.length_drop]
    show min ((4 - signature.length % 4) % 4) (envelope.length - (pos + 8 + signature.length)) = (4 - signature.length % 4) % 4
    omega
  · have hsignature : envelope.drop (pos + 8) = signature ++ envelope.drop (pos + 8 + signature.length) := by
      have hsplit := drop_eq_take_append envelope (pos + 8) signature.length
      rwa [hbody] at hsplit
    have hpadding := drop_eq_take_append envelope (pos + 8 + signature.length) ((4 - signature.length % 4) % 4)
    rw [Nat.add_assoc (pos + 8), ← hpadded] at hpadding
    rw [SignatureFields.bytes]
    simp only [List.append_assoc]
    rw [← hpadding, ← hsignature]
    exact (drop_eq_take_append envelope pos 4).trans (congrArg _ hcount)

/-- One round of the loop. -/
theorem readHints_cons (envelope : Bytes) (pos : Nat) (signature : Bytes) (text : Text) (rest : List (Bytes × Text)) :
    readHints envelope pos ((signature, text) :: rest) =
      if u32At envelope (pos + 4) = signature.length ∧ (envelope.drop (pos + 8)).take signature.length = signature then
        (readHints envelope (pos + 8 + padded signature.length) rest).map fun out =>
          ⟨hexOf ((envelope.drop pos).take 4), text⟩ :: out
      else none := by
  rw [readHints]
  dsimp only
  by_cases hword : u32At envelope (pos + 4) = signature.length
  · rw [if_neg (not_not.mpr hword)]
    by_cases hbody : (envelope.drop (pos + 8)).take signature.length = signature
    · rw [sameBytes_iff.mpr hbody, if_neg (by decide), if_pos ⟨hword, hbody⟩]
    · rw [Bool.eq_false_iff.mpr fun h => hbody (sameBytes_iff.mp h), if_pos (by decide), if_neg fun h => hbody h.2]
  · rw [if_pos hword, if_neg fun h => hword h.1]

/-- The loop returns the hints of the fields that stand at the position, when they have the expected signatures. -/
theorem readHints_iff {envelope : Bytes} {pos : Nat} {expected : List (Bytes × Text)} {out : List DecoratedSignature}
    (hlength : (envelope.drop pos).length = (expected.map fun e => 8 + padded e.1.length).sum) :
    readHints envelope pos expected = some out ↔
      ∃ fields : List SignatureFields, envelope.drop pos = fields.flatMap SignatureFields.bytes ∧
        (∀ f ∈ fields, f.signature.length < 2 ^ 32) ∧ fields.map (·.signature) = expected.map Prod.fst ∧
        out = List.zipWith SignatureFields.shown fields (expected.map Prod.snd) := by
  induction expected generalizing pos out with
  | nil =>
    have hnil : envelope.drop pos = [] := List.eq_nil_of_length_eq_zero hlength
    constructor
    · rintro ⟨⟩
      exact ⟨[], hnil, fun _ hf => absurd hf List.not_mem_nil, rfl, rfl⟩
    · rintro ⟨fields, -, -, hmap, rfl⟩
      rw [List.map_nil, List.map_eq_nil_iff] at hmap
      rw [hmap]
      rfl
  | cons e rest ih =>
    obtain ⟨signature, text⟩ := e
    rw [List.map_cons, List.sum_cons] at hlength
    dsimp only at hlength
    have hrest : (envelope.drop (pos + 8 + padded signature.length)).length =
        (rest.map fun e => 8 + padded e.1.length).sum := by
      rw [Nat.add_assoc, ← List.drop_drop, List.length_drop, hlength]
      exact Nat.add_sub_cancel_left _ _
    rw [readHints_cons]
    constructor
    · intro h
      split_ifs at h with hreads
      obtain ⟨out', hout', rfl⟩ := Option.map_eq_some_iff.mp h
      obtain ⟨fields, htail, hsizes, hmap, rfl⟩ := (ih hrest).mp hout'
      obtain ⟨f, rfl, hsize, hhint, hdrop⟩ := fields_of_reads (by omega) hreads.1 hreads.2
      refine ⟨f :: fields, ?_, List.forall_mem_cons.mpr ⟨hsize, hsizes⟩, ?_, ?_⟩
      · rw [hdrop, htail, List.flatMap_cons]
      · rw [List.map_cons, List.map_cons, hmap]
      · rw [hhint]
        rfl
    · rintro ⟨_ | ⟨f, fields⟩, hdrop, hsizes, hmap, rfl⟩
      · cases hmap
      · rw [List.map_cons, List.map_cons, List.cons.injEq] at hmap
        obtain ⟨rfl, hmap⟩ := hmap
        obtain ⟨hsize, hsizes⟩ := List.forall_mem_cons.mp hsizes
        obtain ⟨hhint, hword, hbody, htail⟩ := reads_fields hsize hdrop
        rw [if_pos ⟨hword, hbody⟩, hhint, (ih hrest).mpr ⟨fields, htail, hsizes, hmap, rfl⟩]
        rfl

/-! ## The tail of an envelope -/

theorem foldl_tail (expected : List Bytes) (n : Nat) :
    expected.foldl (fun sum bytes => sum + (8 + padded bytes.length)) n =
      n + (expected.map fun bytes => 8 + padded bytes.length).sum := by
  induction expected generalizing n with
  | nil => rfl
  | cons bytes expected ih => rw [List.foldl_cons, ih, List.map_cons, List.sum_cons, Nat.add_assoc]

theorem tailLength_eq (expected : List Bytes) :
    tailLength expected = 4 + (expected.map fun bytes => 8 + padded bytes.length).sum := by
  rw [tailLength, foldl_tail, Nat.zero_add]

/-- An envelope that ends in the bytes of a vector of decorated signatures, each with the bytes that fill it up to words. -/
structure EndsInVector (envelope : Bytes) (fields : List SignatureFields) : Prop where
  ends : ∃ front, envelope = front ++ (countBytes fields.length ++ fields.flatMap SignatureFields.bytes)
  count : fields.length < 2 ^ 32
  sizes : ∀ f ∈ fields, f.signature.length < 2 ^ 32

theorem flatMap_bytes_length (fields : List SignatureFields) :
    (fields.flatMap SignatureFields.bytes).length = ((fields.map (·.signature)).map fun b => 8 + padded b.length).sum := by
  induction fields with
  | nil => rfl
  | cons f fields ih =>
    rw [List.flatMap_cons, List.length_append, f.bytes_length, ih, List.map_cons, List.map_cons, List.sum_cons]

theorem map_zip {signatures : List Text} {expected : List Bytes} (h : signatures.length = expected.length) :
    (expected.zip signatures).map Prod.fst = expected ∧ (expected.zip signatures).map Prod.snd = signatures :=
  ⟨List.map_fst_zip h.ge, List.map_snd_zip h.le⟩

theorem sum_zip {signatures : List Text} {expected : List Bytes} (h : signatures.length = expected.length) :
    ((expected.zip signatures).map fun e => 8 + padded e.1.length).sum =
      (expected.map fun bytes => 8 + padded bytes.length).sum := by
  conv_rhs => rw [← (map_zip h).1, List.map_map]
  rfl

/-- Where the envelope ends in a vector, its hints are read. -/
theorem EndsInVector.readHints {envelope : Bytes} {fields : List SignatureFields} (h : EndsInVector envelope fields)
    {signatures : List Text} (hsame : signatures.length = fields.length) :
    tailLength (fields.map (·.signature)) ≤ envelope.length ∧
      u32At envelope (envelope.length - tailLength (fields.map (·.signature))) = signatures.length ∧
      readHints envelope (envelope.length - tailLength (fields.map (·.signature)) + 4)
        ((fields.map (·.signature)).zip signatures) = some (List.zipWith SignatureFields.shown fields signatures) := by
  obtain ⟨⟨front, rfl⟩, hcount, hsizes⟩ := h
  have hsameMap : signatures.length = (fields.map (·.signature)).length := hsame.trans (List.length_map _).symm
  obtain ⟨hfst, hsnd⟩ := map_zip hsameMap
  set vector := countBytes fields.length ++ fields.flatMap SignatureFields.bytes
  have hlength : (front ++ vector).length = front.length + tailLength (fields.map (·.signature)) := by
    rw [List.length_append, List.length_append, flatMap_bytes_length, tailLength_eq]
    rfl
  have hpos : (front ++ vector).length - tailLength (fields.map (·.signature)) = front.length := by
    rw [hlength, Nat.add_sub_cancel]
  have hvector : (front ++ vector).drop front.length = vector := List.drop_left' rfl
  have hbehind : (front ++ vector).drop (front.length + 4) = fields.flatMap SignatureFields.bytes := by
    rw [← List.drop_drop, hvector]
    exact List.drop_left' rfl
  refine ⟨?_, ?_, ?_⟩
  · rw [hlength]
    exact Nat.le_add_left _ _
  · rw [hpos, u32At_of_drop hvector, ScReader.toNat_uint32_of_lt hcount, hsame]
  · rw [hpos]
    refine (readHints_iff ?_).mpr ⟨fields, hbehind, hsizes, hfst.symm, by rw [hsnd]⟩
    rw [hbehind, flatMap_bytes_length, sum_zip hsameMap]

end Signatures

end Soroscan
