import FirstFit.Proofs.Histories

namespace FirstFit

namespace Fault

structure Worded (n : Nat) : Prop where
  large : (requestTooLarge n).message = "request for " ++ toString n ++ " units exceeds 32766"
  outside : (outsideRange n).message = "unit " ++ toString n ++ " outside the managed range"
  start : (notRunStart n).message = "unit " ++ toString n ++ " is not the start of a run"
  free : (alreadyFree n).message = "unit " ++ toString n ++ " is already free"

theorem worded (n : Nat) : Worded n where
  large := by
    have limit : " units exceeds " ++ toString Word.maxUnits = " units exceeds 32766" := by decide
    rw [← limit, ← String.append_assoc]
    rfl
  outside := rfl
  start := rfl
  free := rfl

end Fault

namespace Allocator

def unreleasable (units : Nat) (runs : List Run) (unit : Nat) : Fault :=
  if unit ≥ units then
    .outsideRange unit
  else if ∀ r ∈ runs, r.start ≠ unit then
    .notRunStart unit
  else
    .alreadyFree unit

structure RefusesExactly (a : Allocator) (runs : List Run) (live : Ledger) : Prop where
  alloc : ∀ size fault, (a.alloc size).answer = .error fault ↔
    size > Word.maxUnits ∧ fault = .requestTooLarge size
  allocAt : ∀ size unit fault, (a.allocAt size unit).answer = .error fault ↔
    size > Word.maxUnits ∧ fault = .requestTooLarge size ∨
    (1 ≤ size ∧ size ≤ a.units ∧ unit < a.units ∧ ∀ r ∈ runs, r.start ≠ unit) ∧
      fault = .notRunStart unit
  free : ∀ unit fault, (a.free unit).answer = .error fault ↔
    (∀ r ∈ live, r.start ≠ unit) ∧ fault = unreleasable a.units runs unit
  freeMerged : ∀ unit fault, (a.freeMerged unit).answer = .error fault ↔
    (∀ r ∈ live, r.start ≠ unit) ∧ fault = unreleasable a.units runs unit
  size : ∀ unit fault, a.size unit = .error fault ↔ unit ≥ a.units ∧ fault = .outsideRange unit
  isFree : ∀ unit fault, a.isFree unit = .error fault ↔ unit ≥ a.units ∧ fault = .outsideRange unit
  listed : ∃ free, a.freeRuns = .ok free ∧ a.freeUnits = .ok (Run.total free) ∧
    a.summary = .ok ⟨a.units, free⟩
  unchanged : ∀ call, (a.perform call).answer = .ok none ∨
    (∃ fault, (a.perform call).answer = .error fault) → (a.perform call).after = a

variable {a : Allocator} {m : Arena} {runs : List Run} {fault : Fault} {unit size : Nat}

theorem answer_error_iff (h : a.table.Shows m) (call : Call) :
    (a.perform call).answer = .error fault ↔ m.refusal call = some fault := by
  rw [perform_answer h, Arena.answer]
  cases m.refusal call with
  | none => simp
  | some other => simp

theorem unchanged_of_shows (h : a.table.Shows m) (call : Call)
    (failed : (a.perform call).answer = .ok none ∨
      ∃ fault, (a.perform call).answer = .error fault) :
    (a.perform call).after = a := by
  cases follows h call with
  | refused _ _ program => rw [program]
  | declined _ _ program => rw [program]
  | done _ _ program _ =>
    rw [program] at failed
    rcases failed with declined | ⟨fault, refused⟩
    · cases declined
    · cases refused

theorem map_error_iff {α β : Type} {f : α → β} {o : Outcome α} :
    (o.map f).answer = .error fault ↔ o.answer = .error fault := by
  obtain ⟨answer, after, record⟩ := o
  cases answer <;> simp [Outcome.map, Except.map]

theorem not_startsRun_iff (perm : runs.Perm m.runs) :
    ¬ m.startsRun unit ↔ ∀ r ∈ runs, r.start ≠ unit := by
  rw [Arena.startsRun_iff]
  simp only [perm.mem_iff, not_exists, not_and, ne_eq]

theorem takeRefusal_iff :
    Arena.takeRefusal size = some fault ↔
      size > Word.maxUnits ∧ fault = .requestTooLarge size := by
  rw [Arena.takeRefusal]
  split <;> simp [*, eq_comm]

theorem placeRefusal_iff (perm : runs.Perm m.runs) (small : m.units ≤ Word.maxUnits) :
    m.placeRefusal size unit = some fault ↔
      size > Word.maxUnits ∧ fault = .requestTooLarge size ∨
      (1 ≤ size ∧ size ≤ m.units ∧ unit < m.units ∧ ∀ r ∈ runs, r.start ≠ unit) ∧
        fault = .notRunStart unit := by
  rw [Arena.placeRefusal, ← not_startsRun_iff perm]
  by_cases large : size > Word.maxUnits
  · rw [if_pos large]
    constructor
    · intro eq
      exact Or.inl ⟨large, (Option.some.inj eq).symm⟩
    · rintro (⟨-, rfl⟩ | ⟨⟨-, fits, -⟩, -⟩)
      · rfl
      · omega
  · rw [if_neg large]
    by_cases misplaced : 0 < size ∧ size ≤ m.units ∧ unit < m.units ∧ ¬ m.startsRun unit
    · rw [if_pos misplaced]
      constructor
      · intro eq
        exact Or.inr ⟨misplaced, (Option.some.inj eq).symm⟩
      · rintro (⟨beyond, -⟩ | ⟨-, rfl⟩)
        · exact absurd beyond large
        · rfl
    · rw [if_neg misplaced]
      constructor
      · intro eq
        cases eq
      · rintro (⟨beyond, -⟩ | ⟨there, -⟩)
        · exact absurd beyond large
        · exact absurd there misplaced

theorem releaseRefusal_iff (sound : m.Sound) (perm : runs.Perm m.runs) :
    m.releaseRefusal unit = some fault ↔
      (∀ r ∈ m.used, r.start ≠ unit) ∧ fault = unreleasable m.units runs unit := by
  rw [Arena.releaseRefusal, unreleasable]
  simp only [← not_startsRun_iff perm]
  by_cases outside : unit ≥ m.units
  · have away : ∀ r ∈ m.used, r.start ≠ unit := by
      intro r hr
      have := sound.unit_lt (Arena.mem_runs_of_used hr)
      omega
    simp only [if_pos outside, Option.some.injEq]
    exact ⟨fun eq => ⟨away, eq.symm⟩, fun both => both.2.symm⟩
  by_cases starts : m.startsRun unit = true
  · have starts' : ¬ ¬ m.startsRun unit = true := not_not_intro starts
    simp only [if_neg outside, if_neg starts']
    obtain ⟨r, hr, rfl⟩ := Arena.startsRun_iff.1 starts
    rcases List.mem_append.1 hr with rFree | rUsed
    · have free : m.free.any (·.start = r.start) = true :=
        List.any_eq_true.2 ⟨r, rFree, by simp⟩
      rw [if_pos free]
      exact ⟨fun eq => ⟨sound.no_used_start rFree, (Option.some.inj eq).symm⟩,
        fun both => congrArg some both.2.symm⟩
    · have used : ¬ m.free.any (·.start = r.start) = true := by
        simpa using sound.no_free_start rUsed
      rw [if_neg used]
      constructor
      · intro eq
        cases eq
      · intro both
        exact absurd rfl (both.1 r rUsed)
  · have away : ∀ r ∈ m.used, r.start ≠ unit := by
      intro r hr start
      exact starts (Arena.startsRun_iff.2 ⟨r, Arena.mem_runs_of_used hr, start⟩)
    simp only [if_neg outside, if_pos starts, Option.some.injEq]
    exact ⟨fun eq => ⟨away, eq.symm⟩, fun both => both.2.symm⟩

theorem ranged_error_iff {α : Type} {look : Except Fault α}
    (answers : unit < a.units → ∃ value, look = .ok value) :
    (if unit < a.units then look else .error (.outsideRange unit)) = .error fault ↔
      unit ≥ a.units ∧ fault = .outsideRange unit := by
  by_cases inside : unit < a.units
  · obtain ⟨value, known⟩ := answers inside
    rw [if_pos inside, known]
    constructor
    · intro eq
      cases eq
    · intro both
      exact absurd inside (Nat.not_lt.2 both.1)
  · rw [if_neg inside, Except.error.injEq]
    exact ⟨fun eq => ⟨Nat.le_of_not_lt inside, eq.symm⟩, fun both => both.2.symm⟩

theorem size_error_iff (small : a.units ≤ Word.maxUnits) :
    a.size unit = .error fault ↔ unit ≥ a.units ∧ fault = .outsideRange unit := by
  refine ranged_error_iff fun inside => ?_
  have first : a.table.Covers unit := ⟨by omega, by simp only [units] at *; omega⟩
  have second : a.table.Covers (unit + 1) := ⟨by omega, by simp only [units] at *; omega⟩
  cases multi : (a.table.word unit).isMulti with
  | false =>
    rw [Table.size_of_single small first multi]
    exact ⟨_, rfl⟩
  | true =>
    rw [Table.size_of_multi small first second multi]
    exact ⟨_, rfl⟩

theorem isFree_error_iff (small : a.units ≤ Word.maxUnits) :
    a.isFree unit = .error fault ↔ unit ≥ a.units ∧ fault = .outsideRange unit := by
  refine ranged_error_iff fun inside => ?_
  have covers : a.table.Covers unit := ⟨by omega, by simp only [units] at *; omega⟩
  exact ⟨_, Table.isFree_of_covers small covers⟩

theorem refusesExactly_of_shows (h : a.table.Shows m) (perm : runs.Perm m.runs) :
    a.RefusesExactly runs m.used := by
  have same : a.units = m.units := h.units
  exact {
    alloc := fun _ _ => (answer_error_iff h (.alloc _)).trans takeRefusal_iff
    allocAt := by
      intro size unit fault
      rw [same]
      exact (answer_error_iff h (.allocAt size unit)).trans (placeRefusal_iff perm h.arena_small)
    free := by
      intro unit fault
      rw [same, ← releaseRefusal_iff h.sound perm]
      exact map_error_iff.symm.trans (answer_error_iff h (.free unit))
    freeMerged := by
      intro unit fault
      rw [same, ← releaseRefusal_iff h.sound perm]
      exact map_error_iff.symm.trans (answer_error_iff h (.freeMerged unit))
    size := fun _ _ => size_error_iff h.small
    isFree := fun _ _ => isFree_error_iff h.small
    listed := by
      have listed : a.freeRuns = .ok m.free := h.freeRuns_eq
      refine ⟨m.free, listed, ?_, ?_⟩
      · rw [freeUnits, listed]
        rfl
      · rw [summary, listed]
        rfl
    unchanged := unchanged_of_shows h }

theorem refusesExactly_of_reaches {live : Ledger} {units : Nat} (h : Reaches units a live) :
    a.units = units ∧ (∃ runs, a.table.Tiles 0 runs ∧ a.RefusesExactly runs live) ∧
      ∀ n, Fault.Worded n := by
  obtain ⟨-, m, shows', same, used⟩ := reaches_shows h
  obtain ⟨runs, perm, tiles⟩ := shows'.exists_tiles
  rw [← used]
  exact ⟨shows'.units.trans same, ⟨runs, tiles, refusesExactly_of_shows shows' perm⟩, Fault.worded⟩

theorem refusesExactly_of_vacated : Reaches 5 vacated [⟨2, 1⟩] ∧ vacated.units = 5 ∧
    (∃ runs, vacated.table.Tiles 0 runs ∧ vacated.RefusesExactly runs [⟨2, 1⟩]) ∧
      ∀ n, Fault.Worded n :=
  ⟨reaches_vacated, refusesExactly_of_reaches reaches_vacated⟩

end Allocator

end FirstFit
