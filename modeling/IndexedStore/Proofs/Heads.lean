import Mathlib.Tactic.Ring
import IndexedStore.Cbor.Reader

/-!
The parts of the binary form read back: big-endian numbers, the bytes of texts, the heads of items
and numbers in their narrowest width. Whatever follows a part is left over.
-/
namespace IndexedStore

namespace Bytes

/-! ### Texts -/

theorem toList_loop (bs : ByteArray) (i : Nat) (read : List UInt8) :
    ByteArray.toList.loop bs i read = read.reverse ++ bs.data.toList.drop i := by
  induction hleft : bs.size - i generalizing i read with
  | zero =>
    have hend : ¬ i < bs.size := by omega
    have hlength : bs.data.toList.length ≤ i := by
      rw [Array.length_toList]
      exact Nat.le_of_not_lt hend
    rw [ByteArray.toList.loop, if_neg hend, List.drop_eq_nil_of_le hlength, List.append_nil]
  | succ left ih =>
    have hi : i < bs.size := by omega
    have hget : bs.get! i = bs.data.toList[i] := getElem!_pos bs.data i hi
    rw [ByteArray.toList.loop, if_pos hi, ih (i + 1) _ (by omega), List.reverse_cons,
      List.append_assoc, hget]
    congr 1
    exact (List.drop_eq_getElem_cons (by rw [Array.length_toList]; exact hi)).symm

theorem ofText_eq (s : String) : ofText s = s.toByteArray.data.toList := by
  unfold ofText ByteArray.toList
  rw [toList_loop]
  rfl

theorem length_ofText (s : String) : (ofText s).length = s.utf8ByteSize := by
  rw [ofText_eq, Array.length_toList]
  rfl

/-- The bytes of a text are read as the text. -/
theorem toText?_ofText (s : String) : toText? (ofText s) = some s := by
  have hbytes : (⟨(ofText s).toArray⟩ : ByteArray) = s.toByteArray := by
    rw [ofText_eq]
  unfold toText? String.fromUTF8?
  rw [hbytes, dif_pos s.isValidUTF8]
  rfl

theorem ofText_inj {s t : String} (h : ofText s = ofText t) : s = t := by
  have hread := congrArg toText? h
  rw [toText?_ofText, toText?_ofText] at hread
  exact Option.some.inj hread

/-! ### Numbers -/

theorem toNat_append_singleton (bs : Bytes) (b : UInt8) :
    toNat (bs ++ [b]) = 256 * toNat bs + b.toNat := by
  unfold toNat
  rw [List.foldl_append]
  rfl

theorem length_bigEndian (width n : Nat) : (bigEndian width n).length = width := by
  induction width generalizing n with
  | zero => rfl
  | succ width ih =>
    unfold bigEndian
    rw [List.length_append, ih]
    rfl

theorem toNat_bigEndian (width n : Nat) : toNat (bigEndian width n) = n % 256 ^ width := by
  induction width generalizing n with
  | zero => exact (Nat.mod_one n).symm
  | succ width ih =>
    have hlast : (UInt8.ofNat (n % 256)).toNat = n % 256 := by
      rw [UInt8.toNat_ofNat']
      omega
    unfold bigEndian
    rw [toNat_append_singleton, ih, hlast, Nat.pow_succ', Nat.mod_mul, Nat.add_comm]

theorem takeExactly_append (front rest : Bytes) :
    takeExactly front.length (front ++ rest) = some (front, rest) := by
  unfold takeExactly
  rw [if_pos (by simp), List.take_left, List.drop_left]

theorem takeExactly_bigEndian (width n : Nat) (rest : Bytes) :
    takeExactly width (bigEndian width n ++ rest) = some (bigEndian width n, rest) := by
  have hread := takeExactly_append (bigEndian width n) rest
  rwa [length_bigEndian] at hread

end Bytes

namespace Cbor

/-! ### Heads -/

def headWidth (n : Nat) : Nat :=
  if n < 24 then 0 else if n < Nat.pow 2 8 then 1 else if n < Nat.pow 2 16 then 2
  else if n < Nat.pow 2 32 then 4 else 8

theorem toNat_first {major info : Nat} (hmajor : major < 8) (hinfo : info < 32) :
    (UInt8.ofNat (major * 32 + info)).toNat = major * 32 + info := by
  rw [UInt8.toNat_ofNat']
  omega

/-- A first byte with the code of a width, and the number behind it. -/
theorem takeHead_wide {major width n : Nat} (hmajor : major < 8) (info : Nat)
    (hinfo : info = 24 ∧ width = 1 ∨ info = 25 ∧ width = 2 ∨ info = 26 ∧ width = 4 ∨
      info = 27 ∧ width = 8) (hn : n < 256 ^ width) (rest : Bytes) :
    takeHead (UInt8.ofNat (major * 32 + info) :: (Bytes.bigEndian width n ++ rest)) =
      some (major, .number width n, rest) := by
  have hfirst := toNat_first hmajor (show info < 32 by omega)
  have hmajor' : (major * 32 + info) / 32 = major := by omega
  have hinfo' : (major * 32 + info) % 32 = info := by omega
  unfold takeHead
  dsimp only
  rw [hfirst, hmajor', hinfo']
  rcases hinfo with ⟨rfl, rfl⟩ | ⟨rfl, rfl⟩ | ⟨rfl, rfl⟩ | ⟨rfl, rfl⟩ <;>
  · simp only [Bytes.takeExactly_bigEndian, Option.map_some, Bytes.toNat_bigEndian]
    rw [Nat.mod_eq_of_lt hn]
    rfl

/-- A head is read as its major type and argument. -/
theorem takeHead_head {major n : Nat} (hmajor : major < 8) (hn : n < 2 ^ 64) (rest : Bytes) :
    takeHead (head major n ++ rest) = some (major, .number (headWidth n) n, rest) := by
  unfold head headWidth
  dsimp only
  split_ifs with h1 h2 h3 h4
  · have hfirst := toNat_first hmajor (show n < 32 by omega)
    have hmajor' : (major * 32 + n) / 32 = major := by omega
    have hinfo' : (major * 32 + n) % 32 = n := by omega
    rw [List.singleton_append]
    unfold takeHead
    dsimp only
    rw [hfirst, hmajor', hinfo', if_pos h1]
  · exact takeHead_wide hmajor 24 (by simp) h2 rest
  · exact takeHead_wide hmajor 25 (by simp) h3 rest
  · exact takeHead_wide hmajor 26 (by simp) h4 rest
  · exact takeHead_wide hmajor 27 (by simp) hn rest

theorem head_ne_nil (major n : Nat) : 0 < (head major n).length := by
  unfold head
  dsimp only
  split_ifs <;> simp

end Cbor

/-! ### Numbers in their narrowest width -/

namespace BinaryFormat

variable {f : BinaryFormat}

theorem infinity_add (f : BinaryFormat) : f.infinity + 2 ^ f.fractionBits = f.codes := by
  have hpos := Nat.two_pow_pos f.exponentBits
  unfold infinity codes
  simp only [Nat.pow_eq]
  rw [pow_add, Nat.sub_mul, Nat.one_mul]
  exact Nat.sub_add_cancel (Nat.le_mul_of_pos_left _ hpos)

theorem nearest_lt_codes (f : BinaryFormat) (num den : Nat) : f.nearest num den < f.codes := by
  have hpos := Nat.two_pow_pos f.fractionBits
  have hcodes := f.infinity_add
  have hnearest : f.nearest num den ≤ f.infinity := by
    unfold nearest
    split_ifs
    · exact Nat.zero_le _
    · exact Nat.min_le_left _ _
  omega

end BinaryFormat

namespace Number

/-- A number narrows to a code of the narrower format. -/
theorem narrowCode_lt {f : BinaryFormat} (hf : f.fractionBits ≤ 52) (x : Number) :
    x.narrowCode f < f.codes := by
  unfold narrowCode
  split_ifs with hfinite
  · exact f.nearest_lt_codes _ _
  · have hx : x.code - BinaryFormat.binary64.infinity < 2 ^ 52 := by
      have hcode := x.code_lt
      have hcodes := BinaryFormat.binary64.infinity_add
      rw [show BinaryFormat.binary64.fractionBits = 52 from rfl] at hcodes
      omega
    have hfraction : (x.code - BinaryFormat.binary64.infinity) / 2 ^ (52 - f.fractionBits) <
        2 ^ f.fractionBits := by
      rw [Nat.div_lt_iff_lt_mul (Nat.two_pow_pos _), ← pow_add, Nat.add_sub_cancel' hf]
      exact hx
    have hcodes := f.infinity_add
    rw [Nat.pow_eq]
    omega

theorem narrow?_spec {f : BinaryFormat} (hf : f.fractionBits ≤ 52) {x : Number} {code : Nat}
    (h : x.narrow? f = some code) : code < f.codes ∧ widen f x.negative code = x := by
  unfold narrow? at h
  dsimp only at h
  split_ifs at h with hwiden
  obtain rfl := Option.some.inj h
  exact ⟨narrowCode_lt hf x, hwiden⟩

/-- The sign above a code is told from the code. -/
theorem sign_above {f : BinaryFormat} {code : Nat} (h : code < f.codes) (negative : Bool) :
    decide (f.codes ≤ (if negative then f.codes else 0) + code) = negative ∧
      ((if negative then f.codes else 0) + code) % f.codes = code := by
  cases negative with
  | true =>
    rw [if_pos rfl, Nat.add_mod_left, Nat.mod_eq_of_lt h]
    exact ⟨decide_eq_true (Nat.le_add_right _ _), rfl⟩
  | false =>
    rw [if_neg Bool.false_ne_true, Nat.zero_add, Nat.mod_eq_of_lt h]
    exact ⟨decide_eq_false (Nat.not_le.mpr h), rfl⟩

theorem ofBits_bits (x : Number) : ofBits x.bits = x := by
  obtain ⟨hsign, hcode⟩ := sign_above x.code_lt x.negative
  unfold ofBits bits
  rw [hsign, hcode]
  unfold ofCode
  rw [dif_pos x.code_lt]

end Number

namespace Cbor

theorem widenBits_sign {f : BinaryFormat} {code : Nat} (h : code < f.codes) (negative : Bool) :
    widenBits f ((if negative then f.codes else 0) + code) = Number.widen f negative code := by
  obtain ⟨hsign, hcode⟩ := Number.sign_above h negative
  unfold widenBits
  rw [hsign, hcode]

theorem takeHead_narrow {f : BinaryFormat} {width code : Nat} (info : Nat)
    (hinfo : info = 25 ∧ width = 2 ∨ info = 26 ∧ width = 4)
    (hwidth : 2 * f.codes = 256 ^ width) (hcode : code < f.codes) (negative : Bool)
    (rest : Bytes) :
    takeHead (UInt8.ofNat (7 * 32 + info) :: (narrowBytes f width negative code ++ rest)) =
      some (7, .number width ((if negative then f.codes else 0) + code), rest) := by
  apply takeHead_wide (by decide) info (by omega)
  split_ifs <;> omega

/-- A number is read back with its sign and its code, whichever width holds it. -/
theorem takeHead_floatBytes (x : Number) (rest : Bytes) :
    ∃ width n, takeHead (floatBytes x ++ rest) = some (7, .number width n, rest) ∧
      simple? width n = some (.float x) := by
  unfold floatBytes
  cases h16 : x.narrow? .binary16 with
  | some code =>
    obtain ⟨hcode, hwiden⟩ := Number.narrow?_spec (by decide) h16
    refine ⟨2, _, takeHead_narrow 25 (by decide) (by decide) hcode x.negative rest, ?_⟩
    rw [simple?, widenBits_sign hcode, hwiden]
  | none =>
    cases h32 : x.narrow? .binary32 with
    | some code =>
      obtain ⟨hcode, hwiden⟩ := Number.narrow?_spec (by decide) h32
      refine ⟨4, _, takeHead_narrow 26 (by decide) (by decide) hcode x.negative rest, ?_⟩
      rw [simple?, widenBits_sign hcode, hwiden]
    | none =>
      have hbits : x.bits < 256 ^ 8 := by
        have hcode := x.code_lt
        have hcodes : 2 * BinaryFormat.binary64.codes = 256 ^ 8 := by decide
        unfold Number.bits
        split_ifs <;> omega
      refine ⟨8, x.bits, takeHead_wide (show 7 < 8 by decide) 27 (by decide) hbits rest, ?_⟩
      rw [simple?, Number.ofBits_bits]

theorem floatBytes_ne_nil (x : Number) : 0 < (floatBytes x).length := by
  unfold floatBytes
  split <;> exact Nat.succ_pos _

end Cbor
end IndexedStore
