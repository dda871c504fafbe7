/-!
# Words

A trace is made of 64-bit words, each stored as eight bytes, the least significant first. Main statements:
`wordOfBytes` undoes `bytesOfWord`, and on eight bytes the other way round.
-/

namespace RegionPlanner

/-! ### Little-endian digits -/

/-- The `count` lowest digits of a number to the base 256, the least significant first. -/
def littleEndian (n : Nat) : Nat → List UInt8
  | 0 => []
  | count + 1 => UInt8.ofNat n :: littleEndian (n / 256) count

/-- The number that little-endian digits write. -/
def littleEndianValue : List UInt8 → Nat
  | [] => 0
  | b :: rest => b.toNat + 256 * littleEndianValue rest

@[simp] theorem length_littleEndian (n count : Nat) : (littleEndian n count).length = count := by
  induction count generalizing n with
  | zero => rfl
  | succ count ih => simp [littleEndian, ih]

theorem littleEndian_value (bytes : List UInt8) :
    littleEndian (littleEndianValue bytes) bytes.length = bytes := by
  induction bytes with
  | nil => rfl
  | cons b rest ih =>
    have hb : b.toNat < 256 := b.toNat_lt
    have hdiv : (b.toNat + 256 * littleEndianValue rest) / 256 = littleEndianValue rest := by omega
    have hmod : UInt8.ofNat (b.toNat + 256 * littleEndianValue rest) = b := by
      apply UInt8.toNat_inj.mp
      rw [UInt8.toNat_ofNat']
      omega
    simp only [littleEndian, littleEndianValue, List.length_cons, hdiv, hmod, ih]

/-! ### Words -/

/-- The eight bytes of a word. -/
def bytesOfWord (word : UInt64) : List UInt8 := littleEndian word.toNat 8

/-- The word that up to eight bytes write. -/
def wordOfBytes (bytes : List UInt8) : UInt64 := UInt64.ofNat (littleEndianValue bytes)

@[simp] theorem length_bytesOfWord (word : UInt64) : (bytesOfWord word).length = 8 := by
  simp [bytesOfWord]

theorem wordOfBytes_bytesOfWord (word : UInt64) : wordOfBytes (bytesOfWord word) = word := by
  apply UInt64.toNat_inj.mp
  have hw : word.toNat < 18446744073709551616 := word.toNat_lt
  simp only [wordOfBytes, bytesOfWord, littleEndian, littleEndianValue, UInt64.toNat_ofNat', UInt8.toNat_ofNat']
  omega

theorem littleEndianValue_lt (bytes : List UInt8) :
    littleEndianValue bytes < Nat.pow 256 bytes.length := by
  induction bytes with
  | nil => decide
  | cons b rest ih =>
    have hb : b.toNat < 256 := b.toNat_lt
    have step : Nat.pow 256 (rest.length + 1) = Nat.pow 256 rest.length * 256 := rfl
    simp only [littleEndianValue, List.length_cons, step]
    omega

theorem bytesOfWord_wordOfBytes (bytes : List UInt8) (h : bytes.length = 8) :
    bytesOfWord (wordOfBytes bytes) = bytes := by
  have hv := littleEndianValue_lt bytes
  rw [h, show Nat.pow 256 8 = 18446744073709551616 from rfl] at hv
  have hw : (wordOfBytes bytes).toNat = littleEndianValue bytes := by
    rw [wordOfBytes, UInt64.toNat_ofNat']
    exact Nat.mod_eq_of_lt hv
  rw [bytesOfWord, hw, ← h]
  exact littleEndian_value bytes

end RegionPlanner
