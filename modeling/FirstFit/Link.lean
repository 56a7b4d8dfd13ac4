import FirstFit.Word.Fields

namespace FirstFit

def head : Int := -1

theorem head_eq : head = -1 := rfl

namespace Link

def decode (field : Word) : Int :=
  if field.toNat ≤ Word.maxUnits then field.toNat else head

def encode (position : Int) : Word :=
  if position = head then Word.nextMask else BitVec.ofInt 32 position

theorem decode_bounds (field : Word) : -1 ≤ decode field ∧ decode field ≤ Word.maxUnits := by
  unfold decode head
  split <;> omega

theorem decode_encode {position : Int} (low : -1 ≤ position) (high : position ≤ Word.maxUnits) :
    decode (encode position) = position := by
  unfold encode head
  split
  case isTrue h => subst h; rfl
  case isFalse h =>
    rw [decode, Word.toNat_ofInt (by omega) high, if_pos (by omega)]
    omega

theorem encode_decode {field : Word} (h : Word.Fits field) : encode (decode field) = field := by
  have bound : field.toNat < 32768 := h
  unfold decode
  split
  case isTrue small =>
    rw [encode, if_neg (by rw [head_eq]; omega)]
    apply BitVec.eq_of_toNat_eq
    rw [Word.toNat_ofInt (by omega) (by omega)]
    omega
  case isFalse large =>
    rw [Word.maxUnits_eq] at large
    rw [encode, if_pos rfl]
    apply BitVec.eq_of_toNat_eq
    rw [show Word.nextMask.toNat = 32767 from rfl]
    omega

theorem fits_encode {position : Int} (low : -1 ≤ position) (high : position ≤ Word.maxUnits) :
    Word.Fits (encode position) := by
  unfold encode
  split
  case isTrue h => exact Word.fits_iff_lt.2 (by decide)
  case isFalse h =>
    rw [head_eq] at h
    exact Word.fits_ofInt (by omega) high

end Link

end FirstFit
