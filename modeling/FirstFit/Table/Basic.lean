import FirstFit.Link
import FirstFit.Fault

namespace FirstFit

structure Table where
  units : Nat
  words : Vector Word (units + 2)
  deriving DecidableEq

abbrev Edit := EStateM Fault Table

namespace Table

def blank (units : Nat) : Table where
  units := units
  words := Vector.replicate (units + 2) 0

def Covers (t : Table) (u : Int) : Prop := -1 ≤ u ∧ u ≤ t.units

instance (t : Table) (u : Int) : Decidable (t.Covers u) :=
  inferInstanceAs (Decidable (_ ∧ _))

def slot (u : Int) : Nat := (u + 1).toNat

def word (t : Table) (u : Int) : Word := t.words.toArray.getD (slot u) 0

def put (t : Table) (u : Int) (w : Word) : Table :=
  { t with words := t.words.setIfInBounds (slot u) w }

def index (t : Table) (u : Int) : Except Fault Nat :=
  if t.Covers u then (Checked.add u 1).map Int.toNat else .error (.outsideTable u)

def entry (t : Table) (u : Int) : Except Fault Word := do
  let i ← t.index u
  return t.words.toArray.getD i 0

def ask {α : Type} (read : Table → Except Fault α) : Edit α := fun t =>
  match read t with
  | .ok a => .ok a t
  | .error e => .error e t

def compute {α : Type} (result : Except Fault α) : Edit α := ask fun _ => result

def inspect {α : Type} (f : Word → α) (t : Table) (u : Int) : Except Fault α := do
  let w ← t.entry u
  return f w

def setEntry (u : Int) (w : Word) : Edit Unit := do
  let i ← ask (·.index u)
  modify fun t => { t with words := t.words.setIfInBounds i w }

def modifyEntry (u : Int) (change : Word → Word) : Edit Unit := do
  let w ← ask (·.entry u)
  setEntry u (change w)

def setSentinel (u : Int) : Edit Unit := setEntry u Word.sentinel

theorem slot_lt {t : Table} {u : Int} (h : t.Covers u) : slot u < t.units + 2 := by
  have := h.2
  unfold slot
  omega

theorem slot_inj {s t : Table} {u v : Int} (hu : s.Covers u) (hv : t.Covers v) :
    slot u = slot v ↔ u = v := by
  have := hu.1
  have := hv.1
  unfold slot
  omega

@[simp] theorem units_put (t : Table) (u : Int) (w : Word) : (t.put u w).units = t.units := rfl

@[simp] theorem covers_put (t : Table) (u v : Int) (w : Word) :
    (t.put u w).Covers v ↔ t.Covers v := Iff.rfl

theorem word_put {t : Table} {u v : Int} (hu : t.Covers u) (hv : t.Covers v) (w : Word) :
    (t.put u w).word v = if v = u then w else t.word v := by
  have := slot_lt hv
  have same := slot_inj hu hv
  simp only [word, put, Vector.toArray_setIfInBounds, Array.getD_eq_getD_getElem?,
    Array.getElem?_setIfInBounds]
  by_cases eq : u = v
  · simp [eq, this]
  · have apart : slot u ≠ slot v := fun e => eq (same.1 e)
    have eq' : v ≠ u := fun e => eq e.symm
    simp [apart, eq']

theorem ext_word {s t : Table} (units : s.units = t.units)
    (words : ∀ u, s.Covers u → s.word u = t.word u) : s = t := by
  obtain ⟨n, xs⟩ := s
  obtain ⟨m, ys⟩ := t
  cases units
  congr 1
  apply Vector.ext
  intro i hi
  have at_i := words (i - 1) ⟨by omega, by simp only; omega⟩
  have back : slot ((i : Int) - 1) = i := by unfold slot; omega
  simpa [word, back, hi] using at_i

theorem covers_congr {s t : Table} (units : s.units = t.units) (u : Int) :
    s.Covers u ↔ t.Covers u := by
  simp only [Covers, units]

theorem index_congr {s t : Table} (units : s.units = t.units) (u : Int) : s.index u = t.index u := by
  by_cases hu : s.Covers u
  · rw [index, index, if_pos hu, if_pos ((covers_congr units u).1 hu)]
  · rw [index, index, if_neg hu, if_neg fun h => hu ((covers_congr units u).2 h)]

theorem index_of_covers {t : Table} {u : Int} (small : t.units ≤ Word.maxUnits) (h : t.Covers u) :
    t.index u = .ok (slot u) := by
  have low := h.1
  have high := h.2
  rw [Word.maxUnits_eq] at small
  rw [index, if_pos h, Checked.add_of_representable ⟨by omega, by omega⟩]
  rfl

theorem index_of_not_covers {t : Table} {u : Int} (h : ¬ t.Covers u) :
    t.index u = .error (.outsideTable u) :=
  if_neg h

theorem covers_of_index {t : Table} {u : Int} {i : Nat} (h : t.index u = .ok i) :
    t.Covers u ∧ i = slot u := by
  by_cases hu : t.Covers u
  · rw [index, if_pos hu, Checked.add] at h
    split at h
    · exact ⟨hu, (Except.ok.inj h).symm⟩
    · cases h
  · rw [index_of_not_covers hu] at h
    cases h

theorem entry_of_covers {t : Table} {u : Int} (small : t.units ≤ Word.maxUnits) (h : t.Covers u) :
    t.entry u = .ok (t.word u) := by
  rw [entry, index_of_covers small h]
  rfl

theorem entry_of_not_covers {t : Table} {u : Int} (h : ¬ t.Covers u) :
    t.entry u = .error (.outsideTable u) := by
  rw [entry, index_of_not_covers h]
  rfl

theorem inspect_of_covers {α : Type} {f : Word → α} {t : Table} {u : Int}
    (small : t.units ≤ Word.maxUnits) (h : t.Covers u) : t.inspect f u = .ok (f (t.word u)) := by
  rw [inspect, entry_of_covers small h]
  rfl

theorem inspect_congr {α : Type} {f : Word → α} {s t : Table} {u : Int} (units : s.units = t.units)
    (same : s.Covers u → f (s.word u) = f (t.word u)) : s.inspect f u = t.inspect f u := by
  rw [inspect, inspect, entry, entry, index_congr units]
  cases found : t.index u with
  | error => rfl
  | ok i =>
    obtain ⟨hu, rfl⟩ := covers_of_index found
    exact congrArg Except.ok (same ((covers_congr units u).2 hu))

theorem setEntry_of_covers {t : Table} {u : Int} (small : t.units ≤ Word.maxUnits) (h : t.Covers u)
    (w : Word) : setEntry u w t = .ok () (t.put u w) := by
  simp only [setEntry, bind, EStateM.bind, ask, index_of_covers small h]
  rfl

theorem setEntry_of_not_covers {t : Table} {u : Int} (h : ¬ t.Covers u) (w : Word) :
    setEntry u w t = .error (.outsideTable u) t := by
  simp only [setEntry, bind, EStateM.bind, ask, index_of_not_covers h]

theorem modifyEntry_of_covers {t : Table} {u : Int} (small : t.units ≤ Word.maxUnits)
    (h : t.Covers u) (change : Word → Word) :
    modifyEntry u change t = .ok () (t.put u (change (t.word u))) := by
  simp only [modifyEntry, bind, EStateM.bind, ask, entry_of_covers small h,
    setEntry_of_covers small h]

theorem modifyEntry_of_not_covers {t : Table} {u : Int} (h : ¬ t.Covers u)
    (change : Word → Word) : modifyEntry u change t = .error (.outsideTable u) t := by
  simp only [modifyEntry, bind, EStateM.bind, ask, entry_of_not_covers h]

end Table

end FirstFit
