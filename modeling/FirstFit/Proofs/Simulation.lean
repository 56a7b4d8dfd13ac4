import FirstFit.Allocator.History
import FirstFit.Proofs.Answers
import FirstFit.Proofs.Merging
import FirstFit.Proofs.Splitting

namespace FirstFit

namespace Table.Shows

variable {t : Table} {m : Arena} {r : Run} {size unit : Nat} {before after : List Run}

theorem startsRun_start (h : t.Shows m) (hr : r ∈ m.runs) : t.startsRun r.start = .ok true := by
  rw [h.startsRun_eq (h.sound.unit_lt hr), Arena.startsRun_iff.2 ⟨r, hr, rfl⟩]

theorem startsRun_nothing (h : t.Shows m) (inside : unit < m.units)
    (nothing : m.startsRun unit = false) : t.startsRun unit = .ok false := by
  rw [h.startsRun_eq inside, nothing]

theorem takeFirst_of_none (h : t.Shows m) (none : m.free.find? (fun r => size ≤ r.size) = none) :
    takeFirst size t = .ok (.none, some (.exhausted size)) t := by
  have search := h.search_eq size
  rw [none] at search
  rw [takeFirst, bind_ok (ask_ok search)]
  rfl

theorem takeFirst_of_some (h : t.Shows m) (split : m.free = before ++ r :: after)
    (found : m.free.find? (fun r => size ≤ r.size) = some r) (positive : 0 < size) :
    takeFirst size t = .ok (some r.start, some (.allocated ⟨r.start, size⟩ r.size))
        (t.taken (Run.starts before) (Run.starts after) r size) ∧
      (t.taken (Run.starts before) (Run.starts after) r size).Shows
        (m.carved before r after size) := by
  have search := h.search_eq size
  rw [found] at search
  have fits : size ≤ r.size := by simpa using List.find?_some found
  obtain ⟨take, shows'⟩ := h.carve split positive fits
  refine ⟨?_, shows'⟩
  rw [takeFirst, bind_ok (ask_ok search)]
  exact bind_ok take

theorem takeAt_of_nothing (h : t.Shows m) (inside : unit < m.units)
    (nothing : m.startsRun unit = false) :
    takeAt size unit t = .error (.notRunStart unit) t := by
  rw [takeAt, branch_false (h.startsRun_nothing inside nothing)]
  rfl

theorem takeAt_of_used (h : t.Shows m) (hr : r ∈ m.used) :
    takeAt size r.start t = .ok (none, none) t := by
  have rIn := Arena.mem_runs_of_used hr
  rw [takeAt, branch_true (h.startsRun_start rIn),
    branch_false ((h.used r hr).isFree_start h.small)]
  rfl

theorem takeAt_of_short (h : t.Shows m) (hr : r ∈ m.free) (short : r.size < size) :
    takeAt size r.start t = .ok (none, none) t := by
  have rIn := Arena.mem_runs_of_free hr
  rw [takeAt, branch_true (h.startsRun_start rIn),
    branch_true ((h.free r hr).isFree_start h.small),
    bind_ok (ask_ok (h.size_eq rIn)), if_pos (by omega)]
  rfl

theorem takeAt_of_free (h : t.Shows m) (split : m.free = before ++ r :: after)
    (positive : 0 < size) (fits : size ≤ r.size) :
    takeAt size r.start t = .ok (some r.start, some (.placed ⟨r.start, size⟩))
        (t.taken (Run.starts before) (Run.starts after) r size) ∧
      (t.taken (Run.starts before) (Run.starts after) r size).Shows
        (m.carved before r after size) := by
  have hr : r ∈ m.free := by simp [split]
  have rIn := Arena.mem_runs_of_free hr
  obtain ⟨take, shows'⟩ := h.carve split positive fits
  refine ⟨?_, shows'⟩
  rw [takeAt, branch_true (h.startsRun_start rIn),
    branch_true ((h.free r hr).isFree_start h.small),
    bind_ok (ask_ok (h.size_eq rIn)), if_neg (by omega)]
  exact bind_ok take

theorem releaseAt_of_nothing (h : t.Shows m) (inside : unit < m.units)
    (nothing : m.startsRun unit = false) :
    releaseAt unit t = .error (.notRunStart unit) t := by
  rw [releaseAt, branch_false (h.startsRun_nothing inside nothing)]
  rfl

theorem releaseAt_of_free (h : t.Shows m) (hr : r ∈ m.free) :
    releaseAt r.start t = .error (.alreadyFree r.start) t := by
  have rIn := Arena.mem_runs_of_free hr
  rw [releaseAt, branch_true (h.startsRun_start rIn),
    branch_true ((h.free r hr).isFree_start h.small)]
  rfl

theorem releaseAt_of_used (h : t.Shows m) (hr : r ∈ m.used) {t' : Table} {merged : Merged}
    (merges : merge r.start t = .ok merged t') :
    releaseAt r.start t = .ok (merged, some (.released merged.released merged.into)) t' := by
  have rIn := Arena.mem_runs_of_used hr
  rw [releaseAt, branch_true (h.startsRun_start rIn),
    branch_false ((h.used r hr).isFree_start h.small)]
  exact bind_ok merges

end Table.Shows

namespace Allocator

variable {α : Type} {a : Allocator} {m : Arena} {r : Run} {call : Call} {size unit : Nat}

theorem edit_ok {program : Edit (α × Option Record)} {value : α} {record : Option Record}
    {t : Table} (h : program a.table = .ok (value, record) t) :
    a.edit program = ⟨.ok value, ⟨t⟩, record⟩ := by
  simp only [edit, h]

theorem edit_error {program : Edit (α × Option Record)} {fault : Fault}
    (h : program a.table = .error fault a.table) : a.edit program = a.refuse fault := by
  simp only [edit, h, refuse]

inductive Follows (a : Allocator) (m : Arena) (call : Call) : Prop where
  | refused {fault : Fault} :
      m.refusal call = some fault → m.perform call = none →
        a.perform call = ⟨.error fault, a, none⟩ → Follows a m call
  | declined :
      m.refusal call = none → m.perform call = some (none, m) →
        a.perform call = ⟨.ok none, a, m.report call⟩ → Follows a m call
  | done {value : Nat} {m' : Arena} {t : Table} :
      m.refusal call = none → m.perform call = some (some value, m') →
        a.perform call = ⟨.ok (some value), ⟨t⟩, m.report call⟩ → t.Shows m' → Follows a m call

theorem follows_alloc (h : a.table.Shows m) (size : Nat) : Follows a m (.alloc size) := by
  by_cases large : size > Word.maxUnits
  · refine .refused (if_pos large) (if_pos large) ?_
    rw [perform, alloc, if_pos large]
    rfl
  have refusal : m.refusal (.alloc size) = none := if_neg large
  by_cases never : size = 0 ∨ size > m.units
  · have report : m.report (.alloc size) = none := if_pos never
    refine .declined refusal ?_ ?_
    · rw [Arena.perform, if_neg large, Arena.alloc, if_pos never]
    · rw [report, perform, alloc, if_neg large, units, h.units, if_pos never]
      rfl
  have arena : m.perform (.alloc size) = some (m.take (fun r => size ≤ r.size) size) := by
    rw [Arena.perform, if_neg large, Arena.alloc, if_neg never]
  have table : a.perform (.alloc size) = a.edit (Table.takeFirst size) := by
    rw [perform, alloc, if_neg large, units, h.units, if_neg never]
  have report : m.report (.alloc size) = m.searchReport size := rfl
  rw [Arena.searchReport, if_neg never] at report
  cases found : m.free.find? (fun r => size ≤ r.size) with
  | none =>
    rw [found] at report
    rw [Arena.take_of_none found] at arena
    refine .declined refusal arena ?_
    rw [table, edit_ok (h.takeFirst_of_none found), report]
  | some r =>
    obtain ⟨will, before, after, split, wont⟩ := List.find?_eq_some_iff_append.1 found
    obtain ⟨program, shows'⟩ := h.takeFirst_of_some split found (by omega)
    rw [found] at report
    rw [Arena.take_of_split split will wont] at arena
    refine .done refusal arena ?_ shows'
    rw [table, edit_ok program, report]

theorem follows_place (h : a.table.Shows m) (hr : r ∈ m.runs) (positive : 0 < size)
    (refusal : m.refusal (.allocAt size r.start) = none)
    (arena : m.perform (.allocAt size r.start) = some (m.allocAt size r.start))
    (take : m.allocAt size r.start =
      m.take (fun f => f.start = r.start ∧ size ≤ f.size) size)
    (program : a.perform (.allocAt size r.start) = a.edit (Table.takeAt size r.start)) :
    Follows a m (.allocAt size r.start) := by
  have report : m.report (.allocAt size r.start) =
      (m.allocAt size r.start).1.map fun start => .placed ⟨start, size⟩ := rfl
  rcases List.mem_append.1 hr with rFree | rUsed
  · by_cases fits : size ≤ r.size
    · obtain ⟨will, before, after, split, wont⟩ :=
        List.find?_eq_some_iff_append.1 (h.sound.find?_place rFree fits)
      rw [Arena.take_of_split split will wont] at take
      rw [take] at arena report
      obtain ⟨taken, shows'⟩ := h.takeAt_of_free split positive fits
      refine .done refusal arena ?_ shows'
      rw [program, edit_ok taken, report]
      rfl
    · have short : r.size < size := Nat.lt_of_not_le fits
      rw [Arena.take_of_none (h.sound.find?_place_short rFree short)] at take
      rw [take] at arena report
      refine .declined refusal arena ?_
      rw [program, edit_ok (h.takeAt_of_short rFree short), report]
      rfl
  · rw [Arena.take_of_none (h.sound.find?_place_used rUsed)] at take
    rw [take] at arena report
    refine .declined refusal arena ?_
    rw [program, edit_ok (h.takeAt_of_used rUsed), report]
    rfl

theorem follows_allocAt (h : a.table.Shows m) (size unit : Nat) :
    Follows a m (.allocAt size unit) := by
  by_cases large : size > Word.maxUnits
  · refine .refused (if_pos large) (if_pos (Or.inl large)) ?_
    rw [perform, allocAt, if_pos large]
    rfl
  by_cases misplaced : 0 < size ∧ size ≤ m.units ∧ unit < m.units ∧ ¬ m.startsRun unit
  · have never : ¬ (size = 0 ∨ size > m.units ∨ unit ≥ m.units) := by omega
    have refusal : m.refusal (.allocAt size unit) = some (.notRunStart unit) := by
      rw [Arena.refusal, Arena.placeRefusal, if_neg large, if_pos misplaced]
    have nothing : m.startsRun unit = false := by simpa using misplaced.2.2.2
    refine .refused refusal (if_pos (Or.inr misplaced)) ?_
    rw [perform, allocAt, if_neg large, units, h.units, if_neg never,
      edit_error (h.takeAt_of_nothing misplaced.2.2.1 nothing)]
    rfl
  have refusal : m.refusal (.allocAt size unit) = none := by
    rw [Arena.refusal, Arena.placeRefusal, if_neg large, if_neg misplaced]
  have arena : m.perform (.allocAt size unit) = some (m.allocAt size unit) := by
    rw [Arena.perform, if_neg (not_or.2 ⟨large, misplaced⟩)]
  by_cases never : size = 0 ∨ size > m.units ∨ unit ≥ m.units
  · have declined : m.allocAt size unit = (none, m) := if_pos never
    rw [declined] at arena
    refine .declined refusal arena ?_
    rw [Arena.report, declined, perform, allocAt, if_neg large, units, h.units, if_pos never]
    rfl
  · have starts : m.startsRun unit = true := by
      apply Classical.byContradiction
      intro nothing
      exact misplaced ⟨by omega, by omega, by omega, nothing⟩
    have program : a.perform (.allocAt size unit) = a.edit (Table.takeAt size unit) := by
      rw [perform, allocAt, if_neg large, units, h.units, if_neg never]
    obtain ⟨r, hr, rfl⟩ := Arena.startsRun_iff.1 starts
    exact follows_place h hr (by omega) refusal arena (if_neg never) program

theorem release_outside (h : a.table.Shows m) (outside : unit ≥ m.units) :
    a.release unit = a.refuse (.outsideRange unit) := by
  have large : ¬ unit < a.table.units := by
    rw [h.units]
    omega
  rw [release, units, if_neg large]

theorem release_inside (h : a.table.Shows m) (inside : unit < m.units) :
    a.release unit = a.edit (Table.releaseAt unit) := by
  rw [release, units, h.units, if_pos inside]

theorem release_of_used (h : a.table.Shows m) (hr : r ∈ m.used) {t : Table} {merged : Merged}
    (merges : Table.merge r.start a.table = .ok merged t) :
    a.release r.start = ⟨.ok merged, ⟨t⟩, some (.released merged.released merged.into)⟩ := by
  rw [release_inside h (h.sound.unit_lt (Arena.mem_runs_of_used hr)),
    edit_ok (h.releaseAt_of_used hr merges)]

theorem release_cases (h : a.table.Shows m) (unit : Nat) :
    (∃ fault, m.releaseRefusal unit = some fault ∧ m.used.find? (·.start = unit) = none ∧
      a.release unit = a.refuse fault) ∨
    (∃ r t, m.releaseRefusal unit = none ∧ m.used.find? (·.start = unit) = some r ∧
      a.release unit =
        ⟨.ok ⟨r, (m.release r).1⟩, ⟨t⟩, some (.released r (m.release r).1)⟩ ∧
      t.Shows (m.release r).2) := by
  by_cases outside : unit ≥ m.units
  · refine Or.inl ⟨_, if_pos outside, ?_, a.release_outside h outside⟩
    refine List.find?_eq_none.2 fun f hf => ?_
    have := h.sound.unit_lt (Arena.mem_runs_of_used hf)
    simp only [decide_eq_true_eq]
    omega
  have program := release_inside h (Nat.lt_of_not_le outside)
  by_cases starts : m.startsRun unit = true
  · obtain ⟨r, hr, rfl⟩ := Arena.startsRun_iff.1 starts
    rcases List.mem_append.1 hr with rFree | rUsed
    · left
      have free : m.free.any (·.start = r.start) = true :=
        List.any_eq_true.2 ⟨r, rFree, by simp⟩
      refine ⟨.alreadyFree r.start, ?_, ?_, ?_⟩
      · rw [Arena.releaseRefusal, if_neg outside, if_neg (by simp [starts]), if_pos free]
      · refine List.find?_eq_none.2 fun f hf => ?_
        simpa using h.sound.no_used_start rFree f hf
      · rw [program, edit_error (h.releaseAt_of_free rFree)]
    · right
      have used : ¬ m.free.any (·.start = r.start) = true := by
        simpa using h.sound.no_free_start rUsed
      obtain ⟨t, merges, shows'⟩ := h.release rUsed
      refine ⟨r, t, ?_, h.sound.find?_used rUsed, release_of_used h rUsed merges, shows'⟩
      rw [Arena.releaseRefusal, if_neg outside, if_neg (by simp [starts]), if_neg used]
  · left
    refine ⟨.notRunStart unit, ?_, ?_, ?_⟩
    · rw [Arena.releaseRefusal, if_neg outside, if_pos starts]
    · refine List.find?_eq_none.2 fun f hf => ?_
      intro start
      exact starts (Arena.startsRun_iff.2 ⟨f, Arena.mem_runs_of_used hf, by simpa using start⟩)
    · rw [program, edit_error (h.releaseAt_of_nothing (by omega) (by simpa using starts))]

theorem follows_release {call : Call} (count : Merged → Nat) (h : a.table.Shows m)
    (refusal : m.refusal call = m.releaseRefusal unit)
    (report : m.report call = m.releaseReport unit)
    (arena : m.perform call = (m.used.find? (·.start = unit)).map fun r =>
      (some (count ⟨r, (m.release r).1⟩), (m.release r).2))
    (program : a.perform call = ((a.release unit).map count).map some) : Follows a m call := by
  rcases release_cases h unit with
    ⟨fault, refused, none, released⟩ | ⟨r, t, inOrder, found, released, shows'⟩
  · rw [refused] at refusal
    rw [none] at arena
    rw [released] at program
    exact .refused refusal arena program
  · rw [inOrder] at refusal
    rw [found] at arena
    rw [Arena.releaseReport, found] at report
    rw [released] at program
    refine .done refusal arena ?_ shows'
    rw [program, report]
    rfl

theorem follows (h : a.table.Shows m) (call : Call) : Follows a m call := by
  cases call with
  | alloc size => exact follows_alloc h size
  | allocAt size unit => exact follows_allocAt h size unit
  | free unit => exact follows_release (·.released.size) h rfl rfl rfl rfl
  | freeMerged unit => exact follows_release (·.into.size) h rfl rfl rfl rfl

theorem perform_answer (h : a.table.Shows m) (call : Call) :
    (a.perform call).answer = m.answer call := by
  cases follows h call with
  | refused refusal _ program => rw [program, Arena.answer, refusal]
  | declined refusal arena program =>
    rw [program, Arena.answer, refusal, arena]
    rfl
  | done refusal arena program _ =>
    rw [program, Arena.answer, refusal, arena]
    rfl

theorem perform_record (h : a.table.Shows m) (call : Call) :
    (a.perform call).record = m.record call := by
  cases follows h call with
  | refused _ arena program =>
    rw [program, Arena.record, arena]
    rfl
  | declined _ arena program =>
    rw [program, Arena.record, arena]
    rfl
  | done _ arena program _ =>
    rw [program, Arena.record, arena]
    rfl

theorem shows_next (h : a.table.Shows m) (call : Call) :
    (a.perform call).after.table.Shows (m.next call) := by
  cases follows h call with
  | refused _ arena program =>
    rw [program, Arena.next, arena]
    exact h
  | declined _ arena program =>
    rw [program, Arena.next, arena]
    exact h
  | done _ arena program shows' =>
    rw [program, Arena.next, arena]
    exact shows'

end Allocator

end FirstFit
