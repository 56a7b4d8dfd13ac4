import FirstFit.Proofs.Partition
import FirstFit.Proofs.Writes
import FirstFit.Table.Tiling

namespace FirstFit.Table

structure Sized (t : Table) (r : Run) : Prop where
  positive : 0 < r.size
  inside : r.stop ≤ t.units
  single : r.size = 1 → (t.word r.start).isMulti = false
  first : 1 < r.size → (t.word r.start).isMulti = true
  last : 1 < r.size → (t.word (r.stop - 1)).isMulti = true
  second : 1 < r.size → (t.word (r.start + 1)).sizeField = r.size
  lastSize : 1 < r.size → (t.word (r.stop - 1)).sizeField = r.size

structure Marked (t : Table) (r : Run) (free : Bool) : Prop extends Sized t r where
  firstFree : (t.word r.start).isFree = free
  lastFree : (t.word (r.stop - 1)).isFree = free

section Reads

variable {t : Table} {r : Run} {free : Bool}

theorem Sized.bounds (h : t.Sized r) :
    (r.stop : Int) = r.start + r.size ∧ 0 < (r.size : Int) ∧ (r.stop : Int) ≤ t.units :=
  ⟨r.cast_stop, by exact_mod_cast h.positive, by exact_mod_cast h.inside⟩

theorem Sized.covers (h : t.Sized r) {v : Int} (low : (r.start : Int) ≤ v) (high : v ≤ r.stop) :
    t.Covers v := by
  have := h.bounds
  exact ⟨by omega, by omega⟩

theorem Sized.covers_start (h : t.Sized r) : t.Covers r.start := by
  have := h.bounds
  exact h.covers (Int.le_refl _) (by omega)

theorem Sized.covers_last (h : t.Sized r) : t.Covers (r.stop - 1) := by
  have := h.bounds
  exact h.covers (by omega) (by omega)

theorem Sized.size_eq (h : t.Sized r) (small : t.units ≤ Word.maxUnits) :
    t.size r.start = .ok r.size := by
  have bounds := h.bounds
  by_cases long : 1 < r.size
  · have second : t.Covers (r.start + 1) := h.covers (by omega) (by omega)
    rw [size_of_multi small h.covers_start second (h.first long), h.second long]
  · have one : r.size = 1 := by
      have := h.positive
      omega
    rw [size_of_single small h.covers_start (h.single one), one]
    rfl

theorem Sized.runBefore_eq (h : t.Sized r) (small : t.units ≤ Word.maxUnits) :
    t.runBefore r.stop = .ok r.start := by
  have bounds := h.bounds
  rw [runBefore, sub_eq (by omega) (by omega)]
  simp only [bind, Except.bind, entry_of_covers small h.covers_last]
  by_cases long : 1 < r.size
  · rw [h.last long, if_pos rfl, h.lastSize long, sub_eq (by omega) (by omega)]
    congr 1
    omega
  · have one : r.size = 1 := by
      have := h.positive
      omega
    have same : (r.stop : Int) - 1 = r.start := by omega
    rw [same, h.single one]
    rfl

theorem Marked.isFree_start (h : t.Marked r free) (small : t.units ≤ Word.maxUnits) :
    t.isFree r.start = .ok free := by
  rw [isFree_of_covers small h.covers_start, h.firstFree]

theorem Marked.isFree_last (h : t.Marked r free) (small : t.units ≤ Word.maxUnits) :
    t.isFree (r.stop - 1) = .ok free := by
  rw [isFree_of_covers small h.covers_last, h.lastFree]

theorem Marked.sameMarks {s : Table} (hs : s.Marked r free) (ht : t.Marked r free) :
    SameMarks (s.word r.start) (t.word r.start) where
  free := hs.firstFree.trans ht.firstFree.symm
  multi := by
    by_cases long : 1 < r.size
    · rw [hs.first long, ht.first long]
    · have one : r.size = 1 := by
        have := hs.positive
        omega
      rw [hs.single one, ht.single one]

theorem Marked.tagged (h : t.Marked r free) (small : t.units ≤ Word.maxUnits) :
    t.Tagged r free where
  first := h.isFree_start small
  last := h.isFree_last small
  before := h.runBefore_eq small
  single := h.single
  ends := fun long => ⟨h.first long, h.last long⟩
  sizes := fun long => ⟨h.second long, h.lastSize long⟩

end Reads

section Frames

variable {s t : Table} {r : Run} {free : Bool}

theorem Marked.congr (h : s.Marked r free) (units : t.units = s.units)
    (first : SameMarks (t.word r.start) (s.word r.start))
    (last : 1 < r.size → SameMarks (t.word (r.stop - 1)) (s.word (r.stop - 1)))
    (second : 1 < r.size → (t.word (r.start + 1)).sizeField = (s.word (r.start + 1)).sizeField)
    (lastSize : 1 < r.size → (t.word (r.stop - 1)).sizeField = (s.word (r.stop - 1)).sizeField) :
    t.Marked r free where
  positive := h.positive
  inside := by
    rw [units]
    exact h.inside
  single := fun one => first.multi.trans (h.single one)
  first := fun long => first.multi.trans (h.first long)
  last := fun long => (last long).multi.trans (h.last long)
  second := fun long => (second long).trans (h.second long)
  lastSize := fun long => (lastSize long).trans (h.lastSize long)
  firstFree := first.free.trans h.firstFree
  lastFree := by
    by_cases long : 1 < r.size
    · exact (last long).free.trans h.lastFree
    · have bounds := h.bounds
      have same : (r.stop : Int) - 1 = r.start := by omega
      rw [same]
      exact first.free.trans h.firstFree

theorem Marked.transfer (h : s.Marked r free) (units : t.units = s.units)
    (first : SameMarks (t.word r.start) (s.word r.start))
    (deeper : ∀ v : Int, r.start < v → v < r.stop → t.word v = s.word v) : t.Marked r free := by
  have bounds := h.bounds
  refine h.congr units first (fun long => ?_) (fun long => ?_) (fun long => ?_)
  · rw [deeper _ (by omega) (by omega)]
    exact ⟨rfl, rfl⟩
  · rw [deeper _ (by omega) (by omega)]
  · rw [deeper _ (by omega) (by omega)]

theorem Marked.of_words (h : s.Marked r free) (units : t.units = s.units)
    (same : ∀ v : Int, r.start ≤ v → v < r.stop → t.word v = s.word v) : t.Marked r free := by
  have bounds := h.bounds
  refine h.transfer units ?_ fun v low high => same v (by omega) high
  rw [same _ (Int.le_refl _) (by omega)]
  exact ⟨rfl, rfl⟩

theorem Marked.relinked {P : Int → Prop} (h : s.Marked r free) (links : Relinked P s t)
    (clear : ∀ v, P v → r.Clear v) : t.Marked r free := by
  refine h.transfer links.units (links.marks _ h.covers_start) fun v low high => ?_
  refine links.words v (h.covers (by omega) (by omega)) fun inside => ?_
  have := clear v inside
  simp only [Run.Clear] at this
  omega

theorem Marked.freed {other : Run} {mark : Bool} (h : s.Marked r free) (positive : 0 < other.size)
    (high : other.stop ≤ s.units) (away : r.Apart other) :
    (s.freed other.start other.size mark).Marked r free := by
  have bounds := h.bounds
  have stop := other.cast_stop
  simp only [Run.Apart] at away
  refine h.of_words (units_freed ..) fun v low high => ?_
  exact word_freed_of_outside (by omega) (by omega) (by omega) (h.covers low (by omega)) (by omega)

theorem Marked.sized {other : Run} (h : s.Marked r free) (positive : 0 < other.size)
    (high : other.stop ≤ s.units) (away : r.Apart other) :
    (s.sized other.start other.size).Marked r free := by
  have bounds := h.bounds
  have stop := other.cast_stop
  simp only [Run.Apart] at away
  refine h.of_words (units_sized ..) fun v low high => ?_
  exact word_sized_of_outside (by omega) (by omega) (by omega) (h.covers low (by omega)) (by omega)

theorem Marked.retagged {other : Run} {mark : Bool} (h : s.Marked r free)
    (positive : 0 < other.size) (high : other.stop ≤ s.units) (away : r.Apart other) :
    (s.retagged other.start other.size mark).Marked r free :=
  (h.sized positive high away).freed positive (by simpa using high) away

end Frames

section Setters

variable {t : Table} {r : Run}

theorem sized_sized (small : t.units ≤ Word.maxUnits) (positive : 0 < r.size)
    (inside : r.stop ≤ t.units) : (t.sized r.start r.size).Sized r := by
  have stop := r.cast_stop
  have word {v : Int} (low : (r.start : Int) ≤ v) (high : v < r.stop) :=
    word_sized (t := t) (v := v) (by omega : -1 ≤ (r.start : Int)) (by omega : 1 ≤ (r.size : Int))
      (by omega) ⟨by omega, by omega⟩
  have tag : (Word.sizeTag r.size).sizeField = r.size := Word.sizeField_sizeTag (by omega) (by omega)
  refine ⟨positive, by simpa using inside, fun one => ?_, fun long => ?_, fun long => ?_,
    fun long => ?_, fun long => ?_⟩
  · rw [word (Int.le_refl _) (by omega), if_pos rfl, Word.isMulti_withMulti]
    simp [one]
  · rw [word (Int.le_refl _) (by omega), if_pos rfl, Word.isMulti_withMulti]
    exact decide_eq_true (by omega)
  · rw [word (by omega) (by omega), if_neg (by omega), if_pos (by omega)]
    exact Word.isMulti_sizeTag _
  · rw [word (by omega) (by omega), if_neg (by omega), if_pos (by omega), tag]
  · rw [word (by omega) (by omega), if_neg (by omega), if_pos (by omega), tag]

theorem word_freed_run (free : Bool) {v : Int} (h : t.Sized r) (low : (r.start : Int) ≤ v)
    (high : v < r.stop) :
    (t.freed r.start r.size free).word v =
      if v = r.start ∨ v = r.stop - 1 then Word.withFree free (t.word v) else t.word v := by
  have bounds := h.bounds
  have place : (v = r.start ∨ 1 < (r.size : Int) ∧ v = r.start + r.size - 1) ↔
      (v = r.start ∨ v = r.stop - 1) := by omega
  rw [word_freed (by omega) (by omega) h.covers_start (h.covers low (by omega))]
  simp only [place]

theorem marked_freed {free : Bool} (h : t.Sized r) :
    (t.freed r.start r.size free).Marked r free := by
  have bounds := h.bounds
  have start := word_freed_run free h (Int.le_refl _) (by omega)
  have last := word_freed_run free h (v := r.stop - 1) (by omega) (by omega)
  rw [if_pos (Or.inl rfl)] at start
  rw [if_pos (Or.inr rfl)] at last
  refine ⟨⟨h.positive, by simpa using h.inside, fun one => ?_, fun long => ?_, fun long => ?_,
    fun long => ?_, fun long => ?_⟩, ?_, ?_⟩
  · rw [start, Word.isMulti_withFree]
    exact h.single one
  · rw [start, Word.isMulti_withFree]
    exact h.first long
  · rw [last, Word.isMulti_withFree]
    exact h.last long
  · rw [word_freed_run free h (by omega) (by omega)]
    split
    · rw [Word.sizeField_withFree]
      exact h.second long
    · exact h.second long
  · rw [last, Word.sizeField_withFree]
    exact h.lastSize long
  · rw [start, Word.isFree_withFree]
  · rw [last, Word.isFree_withFree]

theorem marked_retagged {free : Bool} (small : t.units ≤ Word.maxUnits) (positive : 0 < r.size)
    (inside : r.stop ≤ t.units) : (t.retagged r.start r.size free).Marked r free :=
  marked_freed (sized_sized small positive inside)

theorem links_sized {u size v : Int} (low : 0 ≤ u) (positive : 1 ≤ size) (high : u + size ≤ t.units)
    (away : v ≤ u ∨ u + size ≤ v) :
    (t.sized u size).next v = t.next v ∧ (t.sized u size).prev v = t.prev v := by
  have field (hv : t.Covers v) : SameLinks ((t.sized u size).word v) (t.word v) := by
    rw [word_sized (by omega) positive high hv]
    by_cases at_u : v = u
    · rw [if_pos at_u]
      exact ⟨Word.nextField_withMulti .., Word.prevField_withMulti ..⟩
    · rw [if_neg at_u, if_neg (by omega)]
      exact ⟨rfl, rfl⟩
  constructor
  · exact linkAt_congr (units_sized ..) fun hv => (field (by simpa using hv)).next
  · exact linkAt_congr (units_sized ..) fun hv => (field (by simpa using hv)).prev

theorem links_freed {u size : Int} (free : Bool) (low : 0 ≤ u) (positive : 1 ≤ size)
    (high : u + size ≤ t.units) (v : Int) :
    (t.freed u size free).next v = t.next v ∧ (t.freed u size free).prev v = t.prev v := by
  have field (hv : t.Covers v) : SameLinks ((t.freed u size free).word v) (t.word v) := by
    rw [word_freed (by omega) (by omega) ⟨by omega, by omega⟩ hv]
    split
    · exact ⟨Word.nextField_withFree .., Word.prevField_withFree ..⟩
    · exact ⟨rfl, rfl⟩
  constructor
  · exact linkAt_congr (units_freed ..) fun hv => (field (by simpa using hv)).next
  · exact linkAt_congr (units_freed ..) fun hv => (field (by simpa using hv)).prev

end Setters

end FirstFit.Table
