import FirstFit.Proofs.Sound

namespace FirstFit

namespace Arena

def takeRefusal (size : Nat) : Option Fault :=
  if size > Word.maxUnits then some (.requestTooLarge size) else none

def placeRefusal (m : Arena) (size unit : Nat) : Option Fault :=
  if size > Word.maxUnits then
    some (.requestTooLarge size)
  else if 0 < size ∧ size ≤ m.units ∧ unit < m.units ∧ ¬ m.startsRun unit then
    some (.notRunStart unit)
  else
    none

def releaseRefusal (m : Arena) (unit : Nat) : Option Fault :=
  if unit ≥ m.units then
    some (.outsideRange unit)
  else if ¬ m.startsRun unit then
    some (.notRunStart unit)
  else if m.free.any (·.start = unit) then
    some (.alreadyFree unit)
  else
    none

def refusal (m : Arena) : Call → Option Fault
  | .alloc size => takeRefusal size
  | .allocAt size unit => m.placeRefusal size unit
  | .free unit => m.releaseRefusal unit
  | .freeMerged unit => m.releaseRefusal unit

def searchReport (m : Arena) (size : Nat) : Option Record :=
  if size = 0 ∨ size > m.units then
    none
  else
    match m.free.find? (fun r => size ≤ r.size) with
    | some r => some (.allocated ⟨r.start, size⟩ r.size)
    | none => some (.exhausted size)

def releaseReport (m : Arena) (unit : Nat) : Option Record :=
  (m.used.find? (·.start = unit)).map fun r => .released r (m.release r).1

def report (m : Arena) : Call → Option Record
  | .alloc size => m.searchReport size
  | .allocAt size unit => (m.allocAt size unit).1.map fun start => .placed ⟨start, size⟩
  | .free unit => m.releaseReport unit
  | .freeMerged unit => m.releaseReport unit

def answer (m : Arena) (call : Call) : Except Fault (Option Nat) :=
  match m.refusal call with
  | some fault => .error fault
  | none => .ok ((m.perform call).bind (·.1))

def record (m : Arena) (call : Call) : Option Record :=
  (m.perform call).bind fun _ => m.report call

def next (m : Arena) (call : Call) : Arena := ((m.perform call).map (·.2)).getD m

section Take

variable {m : Arena} {r : Run} {willDo : Run → Bool} {size : Nat} {before after : List Run}

theorem takeFrom_of_none {free : List Run} (none : free.find? willDo = none) :
    takeFrom willDo size free = .none := by
  induction free with
  | nil => rfl
  | cons f rest ih =>
    rw [List.find?_cons] at none
    cases will : willDo f with
    | true => simp [will] at none
    | false =>
      rw [will] at none
      simp [takeFrom, will, ih none]

theorem takeFrom_of_split (will : willDo r = true) (wont : ∀ f ∈ before, (!willDo f) = true) :
    takeFrom willDo size (before ++ r :: after) =
      some (r.start, before ++ rest r size ++ after) := by
  induction before with
  | nil => simp [takeFrom, will]
  | cons f others ih =>
    have skip : willDo f = false := by simpa using wont f List.mem_cons_self
    have tail := ih fun g hg => wont g (List.mem_cons_of_mem _ hg)
    simp [takeFrom, skip, tail]

theorem take_of_none (none : m.free.find? willDo = none) : m.take willDo size = (.none, m) := by
  rw [take, takeFrom_of_none none]

theorem take_of_split (split : m.free = before ++ r :: after) (will : willDo r = true)
    (wont : ∀ f ∈ before, (!willDo f) = true) :
    m.take willDo size = (some r.start, m.carved before r after size) := by
  rw [take, split, takeFrom_of_split will wont]
  rfl

theorem take_fst (m : Arena) (willDo : Run → Bool) (size : Nat) :
    (m.take willDo size).1 = (m.free.find? willDo).map (·.start) := by
  cases found : m.free.find? willDo with
  | none => rw [take_of_none found, Option.map_none]
  | some r =>
    obtain ⟨will, before, after, split, wont⟩ := List.find?_eq_some_iff_append.1 found
    rw [take_of_split split will wont, Option.map_some]

theorem answer_alloc (small : m.units ≤ Word.maxUnits) (positive : 1 ≤ size)
    (within : size ≤ m.units) :
    m.answer (.alloc size) = .ok ((m.free.find? fun r => size ≤ r.size).map (·.start)) := by
  have inOrder : ¬ size > Word.maxUnits := by omega
  have never : ¬ (size = 0 ∨ size > m.units) := by omega
  have refusal : m.refusal (.alloc size) = none := if_neg inOrder
  have taken : m.perform (.alloc size) = some (m.take (fun r => size ≤ r.size) size) := by
    rw [perform, if_neg inOrder, alloc, if_neg never]
  rw [answer, refusal, taken]
  exact congrArg Except.ok (m.take_fst _ size)

end Take

variable {m : Arena} {r : Run} {unit : Nat}

theorem startsRun_iff : m.startsRun unit = true ↔ ∃ r ∈ m.runs, r.start = unit := by
  simp only [startsRun, runs, List.any_eq_true, decide_eq_true_eq]

namespace Sound

theorem unit_lt (h : m.Sound) (hr : r ∈ m.runs) : r.start < m.units :=
  Nat.lt_of_lt_of_le (h.partition.start_lt_stop hr) (h.partition.below r hr)

theorem no_free_start (h : m.Sound) (hr : r ∈ m.used) : ∀ f ∈ m.free, f.start ≠ r.start := by
  intro f hf same
  have eq := h.partition.eq_of_start (mem_runs_of_free hf) (mem_runs_of_used hr) same
  exact h.free_not_used hf hr eq

theorem no_used_start (h : m.Sound) (hr : r ∈ m.free) : ∀ f ∈ m.used, f.start ≠ r.start := by
  intro f hf same
  exact h.no_free_start hf r hr same.symm

theorem find?_place {size : Nat} (h : m.Sound) (hr : r ∈ m.free) (fits : size ≤ r.size) :
    m.free.find? (fun f => f.start = r.start ∧ size ≤ f.size) = some r := by
  cases found : m.free.find? (fun f => f.start = r.start ∧ size ≤ f.size) with
  | none => simpa [fits] using List.find?_eq_none.1 found r hr
  | some f =>
    have start : f.start = r.start ∧ size ≤ f.size := by simpa using List.find?_some found
    have hf := List.mem_of_find?_eq_some found
    rw [h.partition.eq_of_start (mem_runs_of_free hf) (mem_runs_of_free hr) start.1]

theorem find?_place_eq_none {size unit : Nat}
    (short : ∀ f ∈ m.free, f.start = unit → f.size < size) :
    m.free.find? (fun f => f.start = unit ∧ size ≤ f.size) = none := by
  refine List.find?_eq_none.2 fun f hf => ?_
  simp only [decide_eq_true_eq, not_and, Nat.not_le]
  exact short f hf

theorem find?_place_short {size : Nat} (h : m.Sound) (hr : r ∈ m.free) (short : r.size < size) :
    m.free.find? (fun f => f.start = r.start ∧ size ≤ f.size) = none :=
  find?_place_eq_none fun f hf start => by
    rwa [h.partition.eq_of_start (mem_runs_of_free hf) (mem_runs_of_free hr) start]

theorem find?_place_used {size : Nat} (h : m.Sound) (hr : r ∈ m.used) :
    m.free.find? (fun f => f.start = r.start ∧ size ≤ f.size) = none :=
  find?_place_eq_none fun f hf start => absurd start (h.no_free_start hr f hf)

end Sound

end Arena

end FirstFit
