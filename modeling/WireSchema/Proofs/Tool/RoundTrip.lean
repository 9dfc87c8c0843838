import WireSchema.Tool
import WireSchema.Proofs.Tool.Values
import Mathlib.Data.List.Forall2

/-!
# Texts that are decoded and encoded again

The text that is shown for an encoding is taken for the same value, which is written to the same
bytes. All that is lost of a hexadecimal text is its spelling.

* `Schema.encodeText_of_decodeText`: what is decoded is encoded to the same bytes.
-/

namespace WireSchema

namespace Hex

/-- Every two digits make a byte. -/
theorem length_of_pairUp {done bs : Bytes} {digits : List Nat} (h : pairUp done digits = some bs) :
    2 * bs.length = 2 * done.length + digits.length := by
  induction done, digits using pairUp.induct with
  | case1 done =>
    cases h
    simp
  | case2 done digit => cases h
  | case3 done high low rest ih =>
    have := ih h
    simp only [List.length_cons] at this ⊢
    omega

theorem length_dropMark_le (text : List Char) : (dropMark text).length ≤ text.length := by
  unfold dropMark
  split
  · simp only [List.length_cons]
    omega
  · simp only [List.length_cons]
    omega
  · exact Nat.le_refl _

/-- There are no more bytes than characters. -/
theorem length_le_of_decode? {text : String} {bs : Bytes} (h : decode? text = some bs) :
    bs.length ≤ text.length := by
  obtain ⟨digits, hdigits, hpair⟩ := Option.bind_eq_some_iff.1 h
  have hlength : (dropMark (text.toList.filter fun c => !isBlank c)).length = digits.length :=
    (length_of_mapM_eq_some hdigits).symm
  have hdrop := length_dropMark_le (text.toList.filter fun c => !isBlank c)
  have hfilter : (text.toList.filter fun c => !isBlank c).length ≤ text.toList.length :=
    List.length_filter_le ..
  have hbytes := length_of_pairUp hpair
  rw [List.length_nil] at hbytes
  rw [← String.length_toList]
  omega

/-- Bytes are written with the sixteen digits only, so in lower case and without a mark. -/
theorem mem_digits_of_mem_encode {bs : Bytes} {c : Char} (h : c ∈ (encode bs).toList) :
    c ∈ digits := by
  have hdigit : ∀ n < 16, digit n ∈ digits := by decide
  rw [encode, String.toList_ofList, encodeChars, List.mem_flatMap] at h
  obtain ⟨b, -, hc⟩ := h
  have hb := b.toNat_lt
  simp only [List.mem_cons, List.not_mem_nil, or_false] at hc
  rcases hc with rfl | rfl
  · exact hdigit _ (by omega)
  · exact hdigit _ (by omega)

end Hex

namespace Schema

variable {schema : Schema} {limits : Limits} {name input text : String}

theorem decodeText_eq_ok_iff :
    schema.decodeText limits name input = .ok text ↔ ∃ bytes r, Hex.decode? input = some bytes ∧
      schema.decode limits name bytes = .ok r ∧ r.toJson.pretty = text := by
  unfold decodeText
  cases Hex.decode? input with
  | none =>
    constructor
    · intro h
      cases h
    · rintro ⟨bytes, r, h, -⟩
      cases h
  | some bytes =>
    simp only [bind_eq_ok_iff, mapError_eq_ok_iff, pure_eq_ok_iff]
    constructor
    · rintro ⟨r, hr, htext⟩
      exact ⟨bytes, r, rfl, hr, htext⟩
    · rintro ⟨_, r, hbytes, hr, htext⟩
      cases hbytes
      exact ⟨r, hr, htext⟩

theorem encodeText_eq_ok_iff {hex : String} :
    schema.encodeText name text = .ok hex ↔ ∃ v r bytes, Json.parse? text = some v ∧
      schema.recordOfJson name v = .ok r ∧ schema.encode name r = .ok bytes ∧
        Hex.encode bytes = hex := by
  unfold encodeText
  cases Json.parse? text with
  | none =>
    constructor
    · intro h
      cases h
    · rintro ⟨v, r, bytes, h, -⟩
      cases h
  | some v =>
    simp only [bind_eq_ok_iff, mapError_eq_ok_iff, pure_eq_ok_iff]
    constructor
    · rintro ⟨r, hr, bytes, hbytes, hhex⟩
      exact ⟨v, r, bytes, rfl, hr, hbytes, hhex⟩
    · rintro ⟨_, r, bytes, hv, hr, hbytes, hhex⟩
      cases hv
      exact ⟨r, hr, bytes, hbytes, hhex⟩

/-- What is decoded is encoded again to the same bytes, in plain hexadecimal, unless its value nests
deeper than JSON text may. -/
theorem encodeText_of_decodeText {d : Document} (h : Schema.resolve d = .ok schema)
    (hinput : input.length < 2 ^ 63) (hdecode : schema.decodeText limits name input = .ok text)
    (hdepth : ∀ bytes r, Hex.decode? input = some bytes →
      schema.decode limits name bytes = .ok r → r.toJson.depth ≤ 127) :
    ∃ bytes, Hex.decode? input = some bytes ∧
      schema.encodeText name text = .ok (Hex.encode bytes) ∧
        ∀ c ∈ (Hex.encode bytes).toList, c ∈ Hex.digits := by
  have hl := layered_of_resolve h
  obtain ⟨bytes, r, hbytes, hr, rfl⟩ := decodeText_eq_ok_iff.1 hdecode
  have hparse : Json.parse? r.toJson.pretty = some r.toJson :=
    Json.parse?_pretty (Value.legible_toJson (.record r)) (hdepth bytes r hbytes hr)
  have hrecord : schema.recordOfJson name r.toJson = .ok r := by
    obtain ⟨offset, hread⟩ := Reader.decode_eq_ok_iff.1 hr
    exact hl.recovers limits name r _ _ hread
  have hencode : schema.encode name r = .ok bytes :=
    encode_of_decode hl (Nat.lt_of_le_of_lt (Hex.length_le_of_decode? hbytes) hinput) hr
  exact ⟨bytes, hbytes, encodeText_eq_ok_iff.2 ⟨_, r, bytes, hparse, hrecord, hencode, rfl⟩,
    fun _ => Hex.mem_digits_of_mem_encode⟩

end Schema

/-- A packet in hexadecimal, on a line after the mark. -/
def packetHex : String := String.ofList ('0' :: 'X' :: '\n' :: Hex.encodeChars sparsePacketBytes)

theorem decode?_packetHex : Hex.decode? packetHex = some sparsePacketBytes := by
  rw [packetHex, Hex.decode?, String.toList_ofList]
  decide +kernel

theorem decodeText_packetHex :
    packetSchema.decodeText {} "Packet" packetHex = .ok (Record.toJson fullPacket).pretty :=
  Schema.decodeText_eq_ok_iff.2
    ⟨sparsePacketBytes, fullPacket, decode?_packetHex, decode_sparsePacketBytes, rfl⟩

/-- The packet comes back without the mark. -/
theorem encodeText_of_decodeText_packetHex :
    Schema.resolve packetDocument = .ok packetSchema ∧ packetHex.length < 2 ^ 63 ∧
      packetSchema.decodeText {} "Packet" packetHex = .ok (Record.toJson fullPacket).pretty ∧
      (Record.toJson fullPacket).depth = 4 ∧
      packetSchema.encodeText "Packet" (Record.toJson fullPacket).pretty =
        .ok (Hex.encode sparsePacketBytes) := by
  have hlength : packetHex.length < 2 ^ 63 := by
    rw [packetHex, String.length_ofList]
    decide
  have hdepth : ∀ bytes r, Hex.decode? packetHex = some bytes →
      packetSchema.decode {} "Packet" bytes = .ok r → (Record.toJson r).depth ≤ 127 := by
    intro bytes r hbytes hr
    rw [decode?_packetHex] at hbytes
    cases hbytes
    rw [decode_sparsePacketBytes] at hr
    cases hr
    decide
  obtain ⟨bytes, hbytes, hencode, -⟩ := Schema.encodeText_of_decodeText resolve_packetDocument
    hlength decodeText_packetHex hdepth
  rw [decode?_packetHex] at hbytes
  cases hbytes
  exact ⟨resolve_packetDocument, hlength, decodeText_packetHex, rfl, hencode⟩

end WireSchema
