import FirstFit.Run
import FirstFit.Table.Tags

namespace FirstFit.Table

def Tiles (t : Table) : Nat → List Run → Prop
  | u, [] => u = t.units
  | u, r :: rest => r.start = u ∧ 0 < r.size ∧ t.size u = .ok r.size ∧ Tiles t r.stop rest

structure Tagged (t : Table) (r : Run) (free : Bool) : Prop where
  first : t.isFree r.start = .ok free
  last : t.isFree (r.stop - 1) = .ok free
  before : t.runBefore r.stop = .ok r.start
  single : r.size = 1 → (t.word r.start).isMulti = false
  ends : 1 < r.size → (t.word r.start).isMulti = true ∧ (t.word (r.stop - 1)).isMulti = true
  sizes : 1 < r.size →
    (t.word (r.start + 1)).sizeField = r.size ∧ (t.word (r.stop - 1)).sizeField = r.size

theorem Tiles.le_units {t : Table} {u : Nat} {runs : List Run} (h : t.Tiles u runs) :
    u ≤ t.units := by
  induction runs generalizing u with
  | nil => exact Nat.le_of_eq h
  | cons r rest ih =>
      obtain ⟨start, -, -, tail⟩ := h
      have := ih tail
      unfold Run.stop at this
      omega

theorem Tiles.start_lt_units {t : Table} {u : Nat} {r : Run} {rest : List Run}
    (h : t.Tiles u (r :: rest)) : u < t.units := by
  obtain ⟨start, positive, -, tail⟩ := h
  have := tail.le_units
  unfold Run.stop at this
  omega

theorem Tiles.unique {t : Table} {u : Nat} {xs ys : List Run} (hx : t.Tiles u xs)
    (hy : t.Tiles u ys) : xs = ys := by
  induction xs generalizing u ys with
  | nil =>
      cases ys with
      | nil => rfl
      | cons y rest => exact absurd hx (Nat.ne_of_lt hy.start_lt_units)
  | cons x rest ih =>
      cases ys with
      | nil => exact absurd hy (Nat.ne_of_lt hx.start_lt_units)
      | cons y rest' =>
          obtain ⟨startX, -, sizeX, tailX⟩ := hx
          obtain ⟨startY, -, sizeY, tailY⟩ := hy
          have sizes : (x.size : Int) = y.size := Except.ok.inj (sizeX.symm.trans sizeY)
          have same : x = y := by
            cases x
            cases y
            simp only [Run.mk.injEq] at *
            omega
          subst same
          rw [ih tailX tailY]

end FirstFit.Table
