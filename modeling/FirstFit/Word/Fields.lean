import FirstFit.Word

namespace FirstFit.Word

theorem getLsbD_of_bits {w : Word} {p : Nat → Prop} [DecidablePred p]
    (bits : ∀ i < 32, w.getLsbD i = decide (p i)) (below : ∀ i, p i → i < 32) (i : Nat) :
    w.getLsbD i = decide (p i) := by
  by_cases h : i < 32
  · exact bits i h
  · have out : ¬ p i := fun holds => h (below i holds)
    rw [BitVec.getLsbD_of_ge _ _ (Nat.le_of_not_lt h), decide_eq_false out]

theorem getLsbD_nextMask (i : Nat) : nextMask.getLsbD i = decide (i < 15) :=
  getLsbD_of_bits (p := (· < 15)) (by decide) (fun _ h => by omega) i

theorem getLsbD_prevMask (i : Nat) : prevMask.getLsbD i = decide (15 ≤ i ∧ i < 30) :=
  getLsbD_of_bits (p := fun i => 15 ≤ i ∧ i < 30) (by decide) (fun _ h => by omega) i

theorem getLsbD_freeMask (i : Nat) : freeMask.getLsbD i = decide (i = 31) :=
  getLsbD_of_bits (p := (· = 31)) (by decide) (fun _ h => by omega) i

theorem getLsbD_multiMask (i : Nat) : multiMask.getLsbD i = decide (i = 30) :=
  getLsbD_of_bits (p := (· = 30)) (by decide) (fun _ h => by omega) i

def Fits (field : Word) : Prop := field.toNat < 1 <<< unitBits

theorem fits_iff_lt {field : Word} : Fits field ↔ field.toNat < 32768 := Iff.rfl

theorem fits_iff {field : Word} : Fits field ↔ ∀ i, 15 ≤ i → field.getLsbD i = false := by
  have limit : 32768 = 2 ^ 15 := rfl
  rw [fits_iff_lt, limit]
  constructor
  · intro h i hi
    exact Nat.testBit_lt_two_pow (Nat.lt_of_lt_of_le h (Nat.pow_le_pow_right (by decide) hi))
  · exact fun h => Nat.lt_pow_two_of_testBit _ h

theorem isFree_eq (w : Word) : w.isFree = w.getLsbD 31 := rfl

theorem isMulti_eq (w : Word) : w.isMulti = w.getLsbD 30 := rfl

theorem getLsbD_nextField (w : Word) (i : Nat) :
    w.nextField.getLsbD i = (decide (i < 15) && w.getLsbD i) := by
  simp only [nextField, BitVec.getLsbD_and, getLsbD_nextMask]
  grind

theorem getLsbD_prevField (w : Word) (i : Nat) :
    w.prevField.getLsbD i = (decide (i < 15) && w.getLsbD (15 + i)) := by
  simp only [prevField, prevShift, unitBits, totalBits, BitVec.getLsbD_ushiftRight,
    BitVec.getLsbD_and, getLsbD_prevMask]
  grind

theorem getLsbD_withFree (b : Bool) (w : Word) (i : Nat) :
    (withFree b w).getLsbD i = if i = 31 then b else w.getLsbD i := by
  have high : 32 ≤ i → w.getLsbD i = false := BitVec.getLsbD_of_ge _ _
  cases b <;> simp only [withFree, if_true, if_false, Bool.false_eq_true, BitVec.getLsbD_or,
    BitVec.getLsbD_and, BitVec.getLsbD_not, getLsbD_freeMask] <;> grind

theorem getLsbD_withMulti (b : Bool) (w : Word) (i : Nat) :
    (withMulti b w).getLsbD i = if i = 30 then b else w.getLsbD i := by
  have high : 32 ≤ i → w.getLsbD i = false := BitVec.getLsbD_of_ge _ _
  cases b <;> simp only [withMulti, if_true, if_false, Bool.false_eq_true, BitVec.getLsbD_or,
    BitVec.getLsbD_and, BitVec.getLsbD_not, getLsbD_multiMask] <;> grind

theorem getLsbD_withNext {field : Word} (h : Fits field) (w : Word) (i : Nat) :
    (withNext field w).getLsbD i = if i < 15 then field.getLsbD i else w.getLsbD i := by
  have high : 32 ≤ i → w.getLsbD i = false := BitVec.getLsbD_of_ge _ _
  have fits := fits_iff.1 h i
  simp only [withNext, BitVec.getLsbD_or, BitVec.getLsbD_and, BitVec.getLsbD_not,
    getLsbD_nextMask]
  grind

theorem getLsbD_withPrev {field : Word} (h : Fits field) (w : Word) (i : Nat) :
    (withPrev field w).getLsbD i =
      if 15 ≤ i ∧ i < 30 then field.getLsbD (i - 15) else w.getLsbD i := by
  have high : 32 ≤ i → w.getLsbD i = false := BitVec.getLsbD_of_ge _ _
  have fits := fits_iff.1 h (i - 15)
  simp only [withPrev, prevShift, unitBits, totalBits, BitVec.getLsbD_or, BitVec.getLsbD_and,
    BitVec.getLsbD_not, getLsbD_prevMask, BitVec.getLsbD_shiftLeft]
  grind

theorem fits_nextField (w : Word) : Fits w.nextField :=
  fits_iff.2 fun i hi => by grind [getLsbD_nextField]

theorem fits_prevField (w : Word) : Fits w.prevField :=
  fits_iff.2 fun i hi => by grind [getLsbD_prevField]

theorem nextField_congr {v w : Word} (low : ∀ i < 15, v.getLsbD i = w.getLsbD i) :
    v.nextField = w.nextField := by
  apply BitVec.eq_of_getLsbD_eq
  intro i _
  rw [getLsbD_nextField, getLsbD_nextField]
  by_cases inside : i < 15
  · rw [low i inside]
  · simp only [inside, decide_false, Bool.false_and]

theorem prevField_congr {v w : Word} (mid : ∀ i < 15, v.getLsbD (15 + i) = w.getLsbD (15 + i)) :
    v.prevField = w.prevField := by
  apply BitVec.eq_of_getLsbD_eq
  intro i _
  rw [getLsbD_prevField, getLsbD_prevField]
  by_cases inside : i < 15
  · rw [mid i inside]
  · simp only [inside, decide_false, Bool.false_and]

theorem eq_of_parts {v w : Word} (free : v.isFree = w.isFree) (multi : v.isMulti = w.isMulti)
    (prev : v.prevField = w.prevField) (next : v.nextField = w.nextField) : v = w := by
  apply BitVec.eq_of_getLsbD_eq
  intro i hi
  have low := congrArg (·.getLsbD i) next
  have mid := congrArg (·.getLsbD (i - 15)) prev
  simp only [getLsbD_nextField, getLsbD_prevField] at low mid
  rw [isFree_eq, isFree_eq] at free
  rw [isMulti_eq, isMulti_eq] at multi
  rcases (by omega : i < 15 ∨ (15 ≤ i ∧ i < 30) ∨ i = 30 ∨ i = 31) with h | h | h | h
  · simpa [h] using low
  · have back : 15 + (i - 15) = i := by omega
    have : i - 15 < 15 := by omega
    simpa [this, back] using mid
  · rw [h]; exact multi
  · rw [h]; exact free

@[simp] theorem isFree_withFree (b : Bool) (w : Word) :
    (withFree b w).isFree = b := by
  simp only [isFree_eq, getLsbD_withFree]
  grind

@[simp] theorem isFree_withMulti (b : Bool) (w : Word) :
    (withMulti b w).isFree = w.isFree := by
  simp only [isFree_eq, getLsbD_withMulti]
  grind

@[simp] theorem isFree_withNext {field : Word} (h : Fits field) (w : Word) :
    (withNext field w).isFree = w.isFree := by
  simp only [isFree_eq, getLsbD_withNext h]
  grind

@[simp] theorem isFree_withPrev {field : Word} (h : Fits field) (w : Word) :
    (withPrev field w).isFree = w.isFree := by
  simp only [isFree_eq, getLsbD_withPrev h]
  grind

@[simp] theorem isMulti_withFree (b : Bool) (w : Word) :
    (withFree b w).isMulti = w.isMulti := by
  simp only [isMulti_eq, getLsbD_withFree]
  grind

@[simp] theorem isMulti_withMulti (b : Bool) (w : Word) :
    (withMulti b w).isMulti = b := by
  simp only [isMulti_eq, getLsbD_withMulti]
  grind

@[simp] theorem isMulti_withNext {field : Word} (h : Fits field) (w : Word) :
    (withNext field w).isMulti = w.isMulti := by
  simp only [isMulti_eq, getLsbD_withNext h]
  grind

@[simp] theorem isMulti_withPrev {field : Word} (h : Fits field) (w : Word) :
    (withPrev field w).isMulti = w.isMulti := by
  simp only [isMulti_eq, getLsbD_withPrev h]
  grind

@[simp] theorem nextField_withFree (b : Bool) (w : Word) :
    (withFree b w).nextField = w.nextField :=
  nextField_congr fun i hi => by rw [getLsbD_withFree, if_neg (by omega)]

@[simp] theorem nextField_withMulti (b : Bool) (w : Word) :
    (withMulti b w).nextField = w.nextField :=
  nextField_congr fun i hi => by rw [getLsbD_withMulti, if_neg (by omega)]

@[simp] theorem nextField_withNext {field : Word} (h : Fits field) (w : Word) :
    (withNext field w).nextField = field := by
  apply BitVec.eq_of_getLsbD_eq
  intro i hi
  have fits := fits_iff.1 h i
  simp only [getLsbD_nextField, getLsbD_withNext h]
  grind

@[simp] theorem nextField_withPrev {field : Word} (h : Fits field) (w : Word) :
    (withPrev field w).nextField = w.nextField :=
  nextField_congr fun i hi => by rw [getLsbD_withPrev h, if_neg (by omega)]

@[simp] theorem prevField_withFree (b : Bool) (w : Word) :
    (withFree b w).prevField = w.prevField :=
  prevField_congr fun i hi => by rw [getLsbD_withFree, if_neg (by omega)]

@[simp] theorem prevField_withMulti (b : Bool) (w : Word) :
    (withMulti b w).prevField = w.prevField :=
  prevField_congr fun i hi => by rw [getLsbD_withMulti, if_neg (by omega)]

@[simp] theorem prevField_withNext {field : Word} (h : Fits field) (w : Word) :
    (withNext field w).prevField = w.prevField :=
  prevField_congr fun i hi => by rw [getLsbD_withNext h, if_neg (by omega)]

@[simp] theorem prevField_withPrev {field : Word} (h : Fits field) (w : Word) :
    (withPrev field w).prevField = field := by
  apply BitVec.eq_of_getLsbD_eq
  intro i hi
  have fits := fits_iff.1 h i
  simp only [getLsbD_prevField, getLsbD_withPrev h]
  grind

structure IsField (get other : Word → Word) (set : Word → Word → Word) : Prop where
  fits : ∀ w, Fits (get w)
  get_set : ∀ {field : Word}, Fits field → ∀ w, get (set field w) = field
  set_get : ∀ w, set (get w) w = w
  set_set : ∀ {first second : Word}, Fits first → Fits second →
    ∀ w, set second (set first w) = set second w
  other_set : ∀ {field : Word}, Fits field → ∀ w, other (set field w) = other w
  isFree_set : ∀ {field : Word}, Fits field → ∀ w, (set field w).isFree = w.isFree
  isMulti_set : ∀ {field : Word}, Fits field → ∀ w, (set field w).isMulti = w.isMulti

theorem isField_next : IsField nextField prevField withNext where
  fits := fits_nextField
  get_set := nextField_withNext
  set_get := fun w => by apply eq_of_parts <;> simp [fits_nextField]
  set_set := fun hf hs w => by apply eq_of_parts <;> simp [hf, hs]
  other_set := prevField_withNext
  isFree_set := isFree_withNext
  isMulti_set := isMulti_withNext

theorem isField_prev : IsField prevField nextField withPrev where
  fits := fits_prevField
  get_set := prevField_withPrev
  set_get := fun w => by apply eq_of_parts <;> simp [fits_prevField]
  set_set := fun hf hs w => by apply eq_of_parts <;> simp [hf, hs]
  other_set := nextField_withPrev
  isFree_set := isFree_withPrev
  isMulti_set := isMulti_withPrev

theorem sizeField_eq (w : Word) : w.sizeField = w.nextField.toNat := rfl

theorem sizeField_bounds (w : Word) : 0 ≤ w.sizeField ∧ w.sizeField ≤ maxUnits + 1 := by
  have fits := fits_iff_lt.1 (fits_nextField w)
  rw [sizeField_eq, maxUnits_eq]
  omega

theorem toNat_ofInt {n : Int} (low : 0 ≤ n) (high : n ≤ maxUnits) :
    (BitVec.ofInt 32 n).toNat = n.toNat := by
  rw [maxUnits_eq] at high
  rw [BitVec.toNat_ofInt]
  congr 1
  omega

theorem fits_ofInt {n : Int} (low : 0 ≤ n) (high : n ≤ maxUnits) : Fits (BitVec.ofInt 32 n) := by
  rw [fits_iff_lt, toNat_ofInt low high]
  rw [maxUnits_eq] at high
  omega

theorem isMulti_sizeTag (n : Int) : (sizeTag n).isMulti = true := by
  simp only [isMulti_eq, sizeTag, BitVec.getLsbD_or, getLsbD_multiMask]
  grind

theorem sizeField_sizeTag {n : Int} (low : 0 ≤ n) (high : n ≤ maxUnits) :
    (sizeTag n).sizeField = n := by
  have field : (sizeTag n).nextField = BitVec.ofInt 32 n := by
    apply BitVec.eq_of_getLsbD_eq
    intro i hi
    have fits := fits_iff.1 (fits_ofInt low high) i
    simp only [getLsbD_nextField, sizeTag, BitVec.getLsbD_or, getLsbD_multiMask]
    grind
  rw [sizeField_eq, field, toNat_ofInt low high]
  omega

@[simp] theorem sizeField_withFree (b : Bool) (w : Word) :
    (withFree b w).sizeField = w.sizeField := by
  simp [sizeField_eq]

end FirstFit.Word
