/-
Oxiscale/Base64.lean

Standard base64 with canonical padding.

Three bytes are four digits of six bits.  A last group of one or two bytes is
filled up with zero bits and `=`; a decoder that insists on both is the exact
inverse of the encoder (`decode_eq_some_iff`).
-/
import Mathlib.Data.List.Basic
import Mathlib.Data.Nat.Notation

namespace Base64

/-! ### Digits -/

def alphabet : List Char :=
  ['A', 'B', 'C', 'D', 'E', 'F', 'G', 'H', 'I', 'J', 'K', 'L', 'M', 'N', 'O', 'P', 'Q', 'R', 'S',
   'T', 'U', 'V', 'W', 'X', 'Y', 'Z', 'a', 'b', 'c', 'd', 'e', 'f', 'g', 'h', 'i', 'j', 'k', 'l',
   'm', 'n', 'o', 'p', 'q', 'r', 's', 't', 'u', 'v', 'w', 'x', 'y', 'z', '0', '1', '2', '3', '4',
   '5', '6', '7', '8', '9', '+', '/']

def digit (n : ℕ) : Char := alphabet.getD n '='

def value (c : Char) : Option ℕ := alphabet.findIdx? (· = c)

theorem value_digit : ∀ n < 64, value (digit n) = some n := by
  decide

theorem digit_ne_pad : ∀ n < 64, digit n ≠ '=' := by
  decide

/-- Only the digits have a value. -/
theorem value_eq_some_iff {c : Char} {n : ℕ} : value c = some n ↔ n < 64 ∧ c = digit n := by
  constructor
  · intro h
    obtain ⟨hn, hc, -⟩ := List.findIdx?_eq_some_iff_getElem.mp h
    refine ⟨hn, ?_⟩
    rw [digit, List.getD_eq_getElem?_getD, List.getElem?_eq_getElem hn]
    simpa using (of_decide_eq_true hc).symm
  · rintro ⟨hn, rfl⟩
    exact value_digit n hn

theorem digit_mem (n : ℕ) : digit n ∈ alphabet ∨ digit n = '=' := by
  rcases Nat.lt_or_ge n alphabet.length with hn | hn
  · refine Or.inl ?_
    rw [digit, List.getD_eq_getElem?_getD, List.getElem?_eq_getElem hn]
    exact List.getElem_mem hn
  · refine Or.inr ?_
    rw [digit, List.getD_eq_getElem?_getD, List.getElem?_eq_none hn]
    rfl

/-! ### The codec -/

/-- Three bytes in four digits, with padding at the end. -/
def encode : List UInt8 → List Char
  | [] => []
  | [a] => [digit (a.toNat / 4), digit (a.toNat % 4 * 16), '=', '=']
  | [a, b] =>
    [digit (a.toNat / 4), digit (a.toNat % 4 * 16 + b.toNat / 16), digit (b.toNat % 16 * 4), '=']
  | a :: b :: c :: rest =>
    digit (a.toNat / 4) :: digit (a.toNat % 4 * 16 + b.toNat / 16) ::
      digit (b.toNat % 16 * 4 + c.toNat / 64) :: digit (c.toNat % 64) :: encode rest

/-- An encoding has no other characters. -/
theorem mem_encode {bytes : List UInt8} {ch : Char} (h : ch ∈ encode bytes) :
    ch ∈ alphabet ∨ ch = '=' := by
  fun_induction encode bytes with
  | case1 => cases h
  | case2 a =>
      simp only [List.mem_cons, List.not_mem_nil, or_false] at h
      rcases h with rfl | rfl | rfl | rfl
      · exact digit_mem _
      · exact digit_mem _
      · exact Or.inr rfl
      · exact Or.inr rfl
  | case3 a b =>
      simp only [List.mem_cons, List.not_mem_nil, or_false] at h
      rcases h with rfl | rfl | rfl | rfl
      · exact digit_mem _
      · exact digit_mem _
      · exact digit_mem _
      · exact Or.inr rfl
  | case4 a b c rest ih =>
      simp only [List.mem_cons] at h
      rcases h with rfl | rfl | rfl | rfl | h
      · exact digit_mem _
      · exact digit_mem _
      · exact digit_mem _
      · exact digit_mem _
      · exact ih h

/-- A last group that is padded; the bits it does not need are zero. -/
def decodeLast (w x : ℕ) (y : Char) : Option (List UInt8) :=
  if y = '=' then
    if x % 16 = 0 then some [UInt8.ofNat (w * 4 + x / 16)] else none
  else do
    let y ← value y
    if y % 4 = 0 then
      some [UInt8.ofNat (w * 4 + x / 16), UInt8.ofNat (x % 16 * 16 + y / 4)]
    else none

/-- Padding is accepted at the end only. -/
def decode : List Char → Option (List UInt8)
  | [] => some []
  | w :: x :: y :: z :: rest => do
    let w ← value w
    let x ← value x
    if z = '=' ∧ rest = [] then decodeLast w x y
    else
      let y ← value y
      let z ← value z
      let bytes ← decode rest
      return UInt8.ofNat (w * 4 + x / 16) :: UInt8.ofNat (x % 16 * 16 + y / 4) ::
        UInt8.ofNat (y % 4 * 64 + z) :: bytes
  | _ => none

theorem toNat_lt (a : UInt8) : a.toNat < 256 := a.toNat_lt

theorem ofNat_eq {n : ℕ} {a : UInt8} (h : n = a.toNat) : UInt8.ofNat n = a := by
  rw [h, UInt8.ofNat_toNat]

/-- What was encoded is decoded. -/
theorem decode_encode (bytes : List UInt8) : decode (encode bytes) = some bytes := by
  -- the digits of a group are below 64, so `value` finds each of them again
  fun_induction encode bytes with
  | case1 => rfl
  | case2 a =>
      have ha := toNat_lt a
      rw [decode, value_digit _ (by omega), value_digit _ (by omega)]
      simp only [Option.bind_eq_bind, Option.bind_some, and_self, if_true, decodeLast]
      rw [if_pos (by omega), ofNat_eq (a := a) (by omega)]
  | case3 a b =>
      have ha := toNat_lt a
      have hb := toNat_lt b
      rw [decode, value_digit _ (by omega), value_digit _ (by omega)]
      simp only [Option.bind_eq_bind, Option.bind_some, and_self, if_true, decodeLast]
      rw [if_neg (digit_ne_pad _ (by omega)), value_digit _ (by omega), Option.bind_some,
        if_pos (by omega), ofNat_eq (a := a) (by omega), ofNat_eq (a := b) (by omega)]
  | case4 a b c rest ih =>
      have ha := toNat_lt a
      have hb := toNat_lt b
      have hc := toNat_lt c
      rw [decode, value_digit _ (by omega), value_digit _ (by omega), value_digit _ (by omega),
        value_digit _ (by omega), ih]
      simp only [Option.bind_eq_bind, Option.bind_some]
      rw [if_neg fun h => digit_ne_pad _ (by omega) h.1, ofNat_eq (a := a) (by omega),
        ofNat_eq (a := b) (by omega), ofNat_eq (a := c) (by omega)]
      rfl

theorem toNat_ofNat {n : ℕ} (h : n < 256) : (UInt8.ofNat n).toNat = n :=
  UInt8.toNat_ofNat_of_lt' h

/-- The last group encodes back to itself. -/
theorem encode_of_decodeLast {w x : ℕ} {y : Char} {bytes : List UInt8} (hw : w < 64) (hx : x < 64)
    (h : decodeLast w x y = some bytes) : [digit w, digit x, y, '='] = encode bytes := by
  unfold decodeLast at h
  split at h
  · rename_i hy
    split at h
    · obtain rfl := Option.some.inj h
      rw [encode, toNat_ofNat (by omega), hy, show (w * 4 + x / 16) / 4 = w by omega,
        show (w * 4 + x / 16) % 4 * 16 = x by omega]
    · cases h
  · obtain ⟨v, hv, hlast⟩ := Option.bind_eq_some_iff.mp h
    obtain ⟨hlt, rfl⟩ := value_eq_some_iff.mp hv
    split at hlast
    · obtain rfl := Option.some.inj hlast
      rw [encode, toNat_ofNat (by omega), toNat_ofNat (by omega),
        show (w * 4 + x / 16) / 4 = w by omega,
        show (w * 4 + x / 16) % 4 * 16 + (x % 16 * 16 + v / 4) / 16 = x by omega,
        show (x % 16 * 16 + v / 4) % 16 * 4 = v by omega]
    · cases hlast

/-- Nothing else is decoded. -/
theorem encode_of_decode {cs : List Char} {bytes : List UInt8} (h : decode cs = some bytes) :
    cs = encode bytes := by
  fun_induction decode cs generalizing bytes with
  | case1 =>
      obtain rfl := Option.some.inj h
      rfl
  | case2 w x y z rest ih =>
      obtain ⟨w', hw, hafter⟩ := Option.bind_eq_some_iff.mp h
      obtain ⟨x', hx, hgroup⟩ := Option.bind_eq_some_iff.mp hafter
      obtain ⟨hwlt, rfl⟩ := value_eq_some_iff.mp hw
      obtain ⟨hxlt, rfl⟩ := value_eq_some_iff.mp hx
      split at hgroup
      -- a padded group is the last one
      · rename_i hlast
        obtain ⟨rfl, rfl⟩ := hlast
        exact encode_of_decodeLast hwlt hxlt hgroup
      · obtain ⟨y', hy, hy'⟩ := Option.bind_eq_some_iff.mp hgroup
        obtain ⟨z', hz, hz'⟩ := Option.bind_eq_some_iff.mp hy'
        obtain ⟨more, hmore, hbytes⟩ := Option.bind_eq_some_iff.mp hz'
        obtain ⟨hylt, rfl⟩ := value_eq_some_iff.mp hy
        obtain ⟨hzlt, rfl⟩ := value_eq_some_iff.mp hz
        obtain rfl := Option.some.inj hbytes
        rw [encode, toNat_ofNat (by omega), toNat_ofNat (by omega), toNat_ofNat (by omega),
          ← ih hmore, show (w' * 4 + x' / 16) / 4 = w' by omega,
          show (w' * 4 + x' / 16) % 4 * 16 + (x' % 16 * 16 + y' / 4) / 16 = x' by omega,
          show (x' % 16 * 16 + y' / 4) % 16 * 4 + (y' % 4 * 64 + z') / 64 = y' by omega,
          show (y' % 4 * 64 + z') % 64 = z' by omega]
  | case3 => cases h

/-- **Decoding is the inverse of encoding.** -/
theorem decode_eq_some_iff {cs : List Char} {bytes : List UInt8} :
    decode cs = some bytes ↔ cs = encode bytes := by
  constructor
  · exact encode_of_decode
  · rintro rfl
    exact decode_encode bytes

end Base64
