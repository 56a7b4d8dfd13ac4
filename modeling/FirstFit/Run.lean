namespace FirstFit

structure Run where
  start : Nat
  size : Nat
  deriving DecidableEq, Repr

namespace Run

def stop (r : Run) : Nat := r.start + r.size

def interval (r : Run) : String := s!"[{r.start}, {r.stop})"

def range (r : Run) : String := s!"{r.start}..{r.stop}"

def total (runs : List Run) : Nat := (runs.map (·.size)).foldr (· + ·) 0

def starts (runs : List Run) : List Int := runs.map fun r => (r.start : Int)

def Contains (r : Run) (u : Nat) : Prop := r.start ≤ u ∧ u < r.stop

instance (r : Run) (u : Nat) : Decidable (r.Contains u) :=
  inferInstanceAs (Decidable (_ ∧ _))

def Apart (r s : Run) : Prop := r.stop ≤ s.start ∨ s.stop ≤ r.start

theorem Apart.symm {r s : Run} (h : r.Apart s) : s.Apart r := Or.symm h

def Within (x r : Run) : Prop := r.start ≤ x.start ∧ x.stop ≤ r.stop

theorem Apart.within {f r x : Run} (h : f.Apart r) (within : x.Within r) : f.Apart x := by
  simp only [Apart, Within] at *
  omega

def Clear (r : Run) (v : Int) : Prop := v ≤ r.start ∨ r.stop ≤ v

theorem Clear.within {r x : Run} {v : Int} (h : r.Clear v) (within : x.Within r) : x.Clear v := by
  simp only [Clear, Within] at *
  omega

theorem clear_start (r : Run) : r.Clear r.start := Or.inl (Int.le_refl _)

theorem Apart.clear {r s : Run} (h : r.Apart s) : r.Clear s.start := by
  simp only [Apart, Clear, stop] at *
  omega

theorem cast_stop (r : Run) : (r.stop : Int) = r.start + r.size := by
  simp [stop]

def Contiguous : Nat → List Run → Nat → Prop
  | u, [], v => u = v
  | u, r :: rest, v => r.start = u ∧ 0 < r.size ∧ Contiguous r.stop rest v

@[simp] theorem starts_nil : starts [] = [] := rfl

@[simp] theorem starts_cons (r : Run) (rest : List Run) :
    starts (r :: rest) = (r.start : Int) :: starts rest := rfl

@[simp] theorem starts_append (xs ys : List Run) : starts (xs ++ ys) = starts xs ++ starts ys :=
  List.map_append

@[simp] theorem mem_starts {v : Int} {runs : List Run} :
    v ∈ starts runs ↔ ∃ r ∈ runs, (r.start : Int) = v :=
  List.mem_map

end Run

end FirstFit
