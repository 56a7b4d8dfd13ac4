import FirstFit.Proofs.Circle
import FirstFit.Proofs.Partition
import FirstFit.Table.FreeList
import FirstFit.Table.Tiling
import FirstFit.Proofs.Writes

namespace FirstFit

namespace Table

section AllRuns

variable {t : Table} {u : Nat} {runs : List Run} {goal : Int}

theorem Tiles.contiguous (h : t.Tiles u runs) : Run.Contiguous u runs t.units := by
  induction runs generalizing u with
  | nil => exact h
  | cons r rest ih =>
    obtain ⟨start, positive, -, tail⟩ := h
    exact ⟨start, positive, ih tail⟩

theorem Tiles.partition (h : t.Tiles u runs) : Partition u t.units runs :=
  .of_contiguous h.contiguous

theorem tiles_of_contiguous (h : Run.Contiguous u runs t.units)
    (sizes : ∀ r ∈ runs, t.size r.start = .ok r.size) : t.Tiles u runs := by
  induction runs generalizing u with
  | nil => exact h
  | cons r rest ih =>
    obtain ⟨rfl, positive, tail⟩ := h
    refine ⟨rfl, positive, sizes r List.mem_cons_self, ih tail fun s hs => ?_⟩
    exact sizes s (List.mem_cons_of_mem _ hs)

theorem Tiles.arrives_eq {steps : Nat} (h : t.Tiles u runs)
    (width : Checked.Representable t.units) (within : goal ≤ t.units) (enough : goal - u ≤ steps) :
    t.arrives goal steps u = .ok (decide (goal ∈ Run.starts runs ∨ goal = t.units)) := by
  -- the cursor is at a run or at the end, never inside a run
  induction runs generalizing u steps with
  | nil =>
    cases (h : u = t.units)
    have stay : ¬ ((t.units : Int) < goal) := by omega
    have answer : ((t.units : Int) == goal) =
        decide (goal ∈ Run.starts [] ∨ goal = (t.units : Int)) := by
      simp [Bool.beq_eq_decide_eq, eq_comm]
    cases steps <;> simp only [arrives, if_neg stay, answer]
  | cons r rest ih =>
    have partition := h.partition
    have lt := h.start_lt_units
    obtain ⟨rfl, positive, size, tail⟩ := h
    have fits := tail.le_units
    have stop := r.cast_stop
    by_cases before : (r.start : Int) < goal
    · obtain ⟨steps, rfl⟩ : ∃ k, steps = k + 1 := ⟨steps - 1, by omega⟩
      have answer : (goal ∈ Run.starts (r :: rest) ∨ goal = t.units) ↔
          (goal ∈ Run.starts rest ∨ goal = t.units) := by
        simp only [Run.starts_cons, List.mem_cons]
        grind
      rw [arrives, if_pos before, size]
      simp only [bind, Except.bind, answer]
      have sum : Checked.Representable ((r.start : Int) + r.size) := ⟨by omega, by
        have := width.2
        omega⟩
      rw [Checked.add_of_representable sum, ← stop]
      exact ih tail (by omega)
    · have answer : ((r.start : Int) == goal) =
          decide (goal ∈ Run.starts (r :: rest) ∨ goal = t.units) := by
        have above : ∀ s ∈ rest, (s.start : Int) ≠ goal := by
          intro s hs
          have := tail.partition.above s hs
          omega
        have notEnd : goal ≠ t.units := by omega
        rw [Bool.beq_eq_decide_eq, decide_eq_decide]
        simp only [Run.starts_cons, List.mem_cons, Run.mem_starts, notEnd, or_false]
        grind
      cases steps <;> simp only [arrives, if_neg before, answer]

theorem Tiles.startsRun_eq (h : t.Tiles 0 runs) (width : Checked.Representable t.units)
    (within : goal ≤ t.units) :
    t.startsRun goal = .ok (decide (goal ∈ Run.starts runs ∨ goal = t.units)) :=
  h.arrives_eq width within (by omega)

theorem representable_units (small : t.units ≤ Word.maxUnits) : Checked.Representable t.units := by
  rw [Word.maxUnits_eq] at small
  exact ⟨by omega, by omega⟩

end AllRuns

section FreeRuns

variable {t : Table} {v : Int} {runs : List Run} {steps : Nat}

theorem start_ne_head (r : Run) : (r.start : Int) ≠ head := by
  rw [head_eq]
  omega

theorem searchFrom_eq {size : Nat} (h : Leads t.next v (Run.starts runs) head)
    (sizes : ∀ r ∈ runs, t.size r.start = .ok r.size) (enough : runs.length ≤ steps) :
    t.searchFrom size steps ((Run.starts runs).headD head) =
      .ok ((runs.find? fun r => size ≤ r.size).map fun r => ((r.start : Int), (r.size : Int))) := by
  induction runs generalizing v steps with
  | nil => cases steps <;> simp [searchFrom]
  | cons r rest ih =>
    obtain ⟨steps, rfl⟩ : ∃ k, steps = k + 1 := ⟨steps - 1, by
      simp only [List.length_cons] at enough
      omega⟩
    have tail : Leads t.next r.start (Run.starts rest) head := h.2
    change t.searchFrom size (steps + 1) r.start = _
    rw [searchFrom, if_neg (start_ne_head r), sizes r List.mem_cons_self]
    simp only [bind, Except.bind, List.find?_cons]
    by_cases fits : size ≤ r.size
    · have fits' : (r.size : Int) ≥ size := by omega
      simp [fits, fits']
    · have fits' : ¬ (r.size : Int) ≥ size := by omega
      simp only [if_neg fits', tail.first, fits, decide_false]
      exact ih tail (fun s hs => sizes s (List.mem_cons_of_mem _ hs)) (by simpa using enough)

theorem visit_head : t.visit head = .ok (none, head) := if_pos rfl

theorem visit_start {r : Run} {after : Int} (next : t.next r.start = .ok after)
    (size : t.size r.start = .ok r.size) : t.visit r.start = .ok (some r, after) := by
  rw [visit, if_neg (start_ne_head r), next]
  simp only [bind, Except.bind, size]
  rfl

theorem runsFrom_eq (h : Leads t.next v (Run.starts runs) head)
    (sizes : ∀ r ∈ runs, t.size r.start = .ok r.size) (enough : runs.length ≤ steps) :
    t.runsFrom steps ((Run.starts runs).headD head) = .ok runs := by
  induction runs generalizing v steps with
  | nil =>
    cases steps with
    | zero => simp [runsFrom]
    | succ steps =>
      change t.runsFrom (steps + 1) head = _
      rw [runsFrom, visit_head]
      rfl
  | cons r rest ih =>
    obtain ⟨steps, rfl⟩ : ∃ k, steps = k + 1 := ⟨steps - 1, by
      simp only [List.length_cons] at enough
      omega⟩
    have tail : Leads t.next r.start (Run.starts rest) head := h.2
    have others := ih tail (fun s hs => sizes s (List.mem_cons_of_mem _ hs)) (by simpa using enough)
    change t.runsFrom (steps + 1) r.start = _
    rw [runsFrom, visit_start tail.first (sizes r List.mem_cons_self)]
    simp only [bind, Except.bind, others]
    rfl

end FreeRuns

end Table

end FirstFit
