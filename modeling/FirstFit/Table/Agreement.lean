import FirstFit.Run
import FirstFit.Table.Basic

namespace FirstFit.Table

structure SameMarks (v w : Word) : Prop where
  free : v.isFree = w.isFree
  multi : v.isMulti = w.isMulti

structure SameLinks (v w : Word) : Prop where
  next : v.nextField = w.nextField
  prev : v.prevField = w.prevField

structure SameRun (s t : Table) (r : Run) : Prop where
  first : SameMarks (s.word r.start) (t.word r.start)
  links : (s.word r.start).isFree → SameLinks (s.word r.start) (t.word r.start)
  second : 2 ≤ r.size → (s.word (r.start + 1)).sizeField = (t.word (r.start + 1)).sizeField
  last : 2 ≤ r.size → SameMarks (s.word (r.stop - 1)) (t.word (r.stop - 1))
  lastSize : 2 ≤ r.size → (s.word (r.stop - 1)).sizeField = (t.word (r.stop - 1)).sizeField

structure Agree (runs : List Run) (s t : Table) : Prop where
  units : s.units = t.units
  top : s.word head = t.word head
  bottom : SameMarks (s.word s.units) (t.word t.units)
  runs : ∀ r ∈ runs, SameRun s t r

instance (v w : Word) : Decidable (SameMarks v w) :=
  decidable_of_iff (v.isFree = w.isFree ∧ v.isMulti = w.isMulti)
    ⟨fun h => ⟨h.1, h.2⟩, fun h => ⟨h.free, h.multi⟩⟩

instance (v w : Word) : Decidable (SameLinks v w) :=
  decidable_of_iff (v.nextField = w.nextField ∧ v.prevField = w.prevField)
    ⟨fun h => ⟨h.1, h.2⟩, fun h => ⟨h.next, h.prev⟩⟩

instance (s t : Table) (r : Run) : Decidable (SameRun s t r) :=
  decidable_of_iff
    (SameMarks (s.word r.start) (t.word r.start) ∧
      ((s.word r.start).isFree → SameLinks (s.word r.start) (t.word r.start)) ∧
      (2 ≤ r.size → (s.word (r.start + 1)).sizeField = (t.word (r.start + 1)).sizeField) ∧
      (2 ≤ r.size → SameMarks (s.word (r.stop - 1)) (t.word (r.stop - 1))) ∧
      (2 ≤ r.size → (s.word (r.stop - 1)).sizeField = (t.word (r.stop - 1)).sizeField))
    ⟨fun ⟨first, links, second, last, lastSize⟩ => ⟨first, links, second, last, lastSize⟩,
      fun h => ⟨h.first, h.links, h.second, h.last, h.lastSize⟩⟩

instance (runs : List Run) (s t : Table) : Decidable (Agree runs s t) :=
  decidable_of_iff
    (s.units = t.units ∧ s.word head = t.word head ∧
      SameMarks (s.word s.units) (t.word t.units) ∧ ∀ r ∈ runs, SameRun s t r)
    ⟨fun ⟨units, top, bottom, same⟩ => ⟨units, top, bottom, same⟩,
      fun h => ⟨h.units, h.top, h.bottom, h.runs⟩⟩

theorem SameMarks.refl (w : Word) : SameMarks w w := ⟨rfl, rfl⟩

theorem SameMarks.symm {v w : Word} (h : SameMarks v w) : SameMarks w v :=
  ⟨h.free.symm, h.multi.symm⟩

theorem SameMarks.trans {u v w : Word} (h : SameMarks u v) (h' : SameMarks v w) : SameMarks u w :=
  ⟨h.free.trans h'.free, h.multi.trans h'.multi⟩

def positions (t : Table) : List Int :=
  (List.range (t.units + 2)).map fun (i : Nat) => (i : Int) - 1

def changed (s t : Table) : List Int :=
  s.positions.filter fun u => s.word u ≠ t.word u

theorem mem_positions {t : Table} {u : Int} : u ∈ t.positions ↔ t.Covers u := by
  simp only [positions, List.mem_map, List.mem_range]
  constructor
  · rintro ⟨i, hi, rfl⟩
    exact ⟨by omega, by omega⟩
  · rintro ⟨low, high⟩
    exact ⟨(u + 1).toNat, by omega, by omega⟩

theorem mem_changed {s t : Table} {u : Int} :
    u ∈ changed s t ↔ s.Covers u ∧ s.word u ≠ t.word u := by
  simp [changed, mem_positions]

end FirstFit.Table
