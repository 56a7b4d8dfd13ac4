import FirstFit.Proofs.Frames

namespace FirstFit

namespace Table

structure Bounds (s t : Table) (u n : Int) (free : Bool) : Prop where
  units : t.units = s.units
  size : t.size u = .ok n
  before : t.runBefore (u + n) = .ok u
  first : t.isFree u = .ok free
  last : t.isFree (u + n - 1) = .ok free
  next : t.next u = s.next u
  prev : t.prev u = s.prev u
  words : ∀ v, s.Covers v → v ≠ u → (1 < n → v ≠ u + 1) → v ≠ u + n - 1 → t.word v = s.word v

variable {t : Table} {r : Run} {free : Bool}

theorem setSize_setFree_eq (small : t.units ≤ Word.maxUnits) (positive : 0 < r.size)
    (inside : r.stop ≤ t.units) :
    (do setSize r.start r.size; setFree r.start free) t =
      .ok () (t.retagged r.start r.size free) := by
  have stop := r.cast_stop
  have start : t.Covers r.start := ⟨by omega, by omega⟩
  rw [bind_ok (setSize_eq small (by omega) (by omega) (by omega))]
  refine setFree_eq (by simpa using small) (by simpa using start) ?_ ?_
  · exact size_sized small positive inside
  · rw [units_sized]
    omega

theorem bounds_retagged (small : t.units ≤ Word.maxUnits) (positive : 0 < r.size)
    (inside : r.stop ≤ t.units) :
    t.Bounds (t.retagged r.start r.size free) r.start r.size free := by
  have stop := r.cast_stop
  have marked : (t.retagged r.start r.size free).Marked r free :=
    marked_retagged small positive inside
  have small' : (t.retagged r.start r.size free).units ≤ Word.maxUnits := by simpa using small
  have sized := links_sized (t := t) (v := r.start) (by omega : 0 ≤ (r.start : Int))
    (by omega : 1 ≤ (r.size : Int)) (by omega) (Or.inl (Int.le_refl _))
  have freed := links_freed (t := t.sized r.start r.size) free (by omega : 0 ≤ (r.start : Int))
    (by omega : 1 ≤ (r.size : Int)) (by rw [units_sized]; omega) r.start
  refine ⟨units_retagged .., marked.size_eq small', ?_, marked.isFree_start small', ?_,
    freed.1.trans sized.1, freed.2.trans sized.2, fun v hv first second last => ?_⟩
  · rw [← stop]
    exact marked.runBefore_eq small'
  · rw [← stop]
    exact marked.isFree_last small'
  · exact word_retagged_of_ne positive inside hv first (fun _ => second (by omega)) (by omega)

theorem bounds_setSize_setFree {u size : Int} (small : t.units ≤ Word.maxUnits) (low : 0 ≤ u)
    (positive : 1 ≤ size) (high : u + size ≤ t.units) (free : Bool) :
    ∃ s, (do setSize u size; setFree u free) t = .ok () s ∧ t.Bounds s u size free := by
  obtain ⟨start, rfl⟩ := Int.eq_ofNat_of_zero_le low
  obtain ⟨count, rfl⟩ := Int.eq_ofNat_of_zero_le (by omega : 0 ≤ size)
  have some : 0 < count := by omega
  have inside : Run.stop ⟨start, count⟩ ≤ t.units := by
    simp only [Run.stop]
    omega
  have run : (do setSize start count; setFree start free) t =
      .ok () (t.retagged start count free) :=
    setSize_setFree_eq (r := ⟨start, count⟩) small some inside
  exact ⟨_, run, bounds_retagged (r := ⟨start, count⟩) small some inside⟩

def scribbled : Table :=
  ((Table.mk 6 (Vector.replicate 8 0xffffffff)).retagged 0 5 false).retagged 2 4 true

theorem bounds_scribbled :
    (scribbled.units ≤ Word.maxUnits ∧ (0 : Int) ≤ 1 ∧ (1 : Int) ≤ 2 ∧
      (1 : Int) + 2 ≤ scribbled.units) ∧
    ∃ s, (do setSize 1 2; setFree 1 true) scribbled = .ok () s ∧ scribbled.Bounds s 1 2 true := by
  have units : scribbled.units = 6 := by simp [scribbled]
  have fits : scribbled.units ≤ Word.maxUnits ∧ (0 : Int) ≤ 1 ∧ (1 : Int) ≤ 2 ∧
      (1 : Int) + 2 ≤ scribbled.units := by
    rw [units]
    decide
  exact ⟨fits, bounds_setSize_setFree fits.1 fits.2.1 fits.2.2.1 fits.2.2.2 true⟩

end Table

end FirstFit
