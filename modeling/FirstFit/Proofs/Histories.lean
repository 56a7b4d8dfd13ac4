import FirstFit.Proofs.Simulation

namespace FirstFit

namespace Arena

variable {m m' : Arena} {call : Call} {answer : Option Nat}

theorem take_kept (m : Arena) (willDo : Run → Bool) (size : Nat) :
    (m.take willDo size).2.units = m.units ∧
      (m.take willDo size).2.used =
        ((m.take willDo size).1.map fun unit => ⟨unit, size⟩).toList ++ m.used := by
  rw [take]
  cases takeFrom willDo size m.free with
  | none => exact ⟨rfl, rfl⟩
  | some taken => exact ⟨rfl, rfl⟩

theorem alloc_kept (m : Arena) (size : Nat) :
    (m.alloc size).2.units = m.units ∧
      (m.alloc size).2.used = ((m.alloc size).1.map fun unit => ⟨unit, size⟩).toList ++ m.used := by
  rw [alloc]
  split
  · exact ⟨rfl, rfl⟩
  · exact take_kept ..

theorem allocAt_kept (m : Arena) (size unit : Nat) :
    (m.allocAt size unit).2.units = m.units ∧
      (m.allocAt size unit).2.used =
        ((m.allocAt size unit).1.map fun start => ⟨start, size⟩).toList ++ m.used := by
  rw [allocAt]
  split
  · exact ⟨rfl, rfl⟩
  · exact take_kept ..

theorem perform_kept (h : m.perform call = some (answer, m')) :
    m'.units = m.units ∧ m'.used = Ledger.note m.used call (.ok answer) := by
  cases call with
  | alloc size =>
    rw [perform] at h
    split at h
    · cases h
    · obtain ⟨units, used⟩ := m.alloc_kept size
      rw [Option.some.inj h] at units used
      refine ⟨units, used.trans ?_⟩
      cases answer <;> rfl
  | allocAt size unit =>
    rw [perform] at h
    split at h
    · cases h
    · obtain ⟨units, used⟩ := m.allocAt_kept size unit
      rw [Option.some.inj h] at units used
      refine ⟨units, used.trans ?_⟩
      cases answer <;> rfl
  | free unit | freeMerged unit =>
    obtain ⟨r, found, eq⟩ := Option.map_eq_some_iff.1 h
    have start : r.start = unit := by simpa using List.find?_some found
    cases eq
    refine ⟨rfl, ?_⟩
    rw [← start]
    rfl

def performAll (m : Arena) : List Call → Option (List (Option Nat) × Arena)
  | [] => some ([], m)
  | call :: rest =>
      match m.perform call with
      | none => none
      | some (answer, next) =>
          (next.performAll rest).map fun (answers, last) => (answer :: answers, last)

end Arena

namespace Allocator

variable {a : Allocator} {m : Arena} {live : Ledger} {units : Nat} {call : Call}

theorem create_eq (small : units ≤ Word.maxUnits) :
    create units = .ok (⟨Table.formatted units⟩, .built units) := by
  rw [create, if_neg (by omega), (Table.Shows.fresh units small).1]

theorem create_shows (small : units ≤ Word.maxUnits) :
    ∃ a, create units = .ok (a, .built units) ∧ a.table.Shows (Arena.fresh units) :=
  ⟨_, create_eq small, (Table.Shows.fresh units small).2⟩

theorem create_cases {record : Record} (h : create units = .ok (a, record)) :
    units ≤ Word.maxUnits ∧ record = .built units ∧ a.table.Shows (Arena.fresh units) := by
  by_cases large : units > Word.maxUnits
  · rw [create, if_pos large] at h
    cases h
  · obtain ⟨b, made, shows'⟩ := create_shows (Nat.le_of_not_lt large)
    rw [made] at h
    cases h
    exact ⟨Nat.le_of_not_lt large, rfl, shows'⟩

theorem perform_shows (h : a.table.Shows m) (call : Call) :
    ∃ m', (a.perform call).after.table.Shows m' ∧ m'.units = m.units ∧
      m'.used = Ledger.note m.used call (a.perform call).answer := by
  cases follows h call with
  | refused _ _ program =>
    rw [program]
    refine ⟨m, h, rfl, ?_⟩
    cases call <;> rfl
  | declined _ arena program =>
    rw [program]
    exact ⟨m, h, Arena.perform_kept arena⟩
  | done _ arena program shows' =>
    rw [program]
    exact ⟨_, shows', Arena.perform_kept arena⟩

theorem performAll_shows (h : a.table.Shows m) (calls : List Call) :
    ∃ m', (a.performAll calls).table.Shows m' ∧ m'.units = m.units := by
  induction calls generalizing a m with
  | nil => exact ⟨m, h, rfl⟩
  | cons call rest ih =>
    obtain ⟨next, shows', units, -⟩ := perform_shows h call
    obtain ⟨last, shown, same⟩ := ih shows'
    exact ⟨last, shown, same.trans units⟩

theorem reaches_shows (h : Reaches units a live) :
    units ≤ Word.maxUnits ∧ ∃ m, a.table.Shows m ∧ m.units = units ∧ m.used = live := by
  induction h with
  | create made =>
    obtain ⟨small, -, shows'⟩ := create_cases made
    exact ⟨small, _, shows', rfl, rfl⟩
  | perform call _ ih =>
    obtain ⟨small, m, shows', same, used⟩ := ih
    obtain ⟨m', shows', same', used'⟩ := perform_shows shows' call
    refine ⟨small, m', shows', same'.trans same, ?_⟩
    rw [used', used]

def ledger (a : Allocator) (live : Ledger) : List Call → Ledger
  | [] => live
  | call :: rest => (a.perform call).after.ledger (live.note call (a.perform call).answer) rest

theorem reaches_performAll (h : Reaches units a live) (calls : List Call) :
    Reaches units (a.performAll calls) (a.ledger live calls) := by
  induction calls generalizing a live with
  | nil => exact h
  | cons call rest ih => exact ih (h.perform call)

theorem reaches_of_ledger (small : units ≤ Word.maxUnits) (calls : List Call)
    (holds : ledger ⟨Table.formatted units⟩ [] calls = live) :
    Reaches units (performAll ⟨Table.formatted units⟩ calls) live :=
  holds ▸ reaches_performAll (.create (create_eq small)) calls

def vacated : Allocator := performAll ⟨Table.formatted 5⟩ [.alloc 2, .allocAt 1 2, .free 0]

theorem reaches_vacated : Reaches 5 vacated [⟨2, 1⟩] :=
  reaches_of_ledger (by decide) _ (by decide +kernel)

def scattered : Allocator :=
  performAll ⟨Table.formatted 10⟩ ([1, 2, 1, 3, 1].map .alloc ++ [4, 0].map .free)

theorem reaches_scattered : Reaches 10 scattered [⟨7, 1⟩, ⟨3, 1⟩, ⟨1, 2⟩] :=
  reaches_of_ledger (by decide) _ (by decide +kernel)

theorem freeRuns_scattered : scattered.freeRuns = .ok [⟨0, 1⟩, ⟨4, 3⟩, ⟨8, 2⟩] := by decide +kernel

theorem perform_lockstep (h : a.table.Shows m) (call : Call) :
    (m.perform call = none ∧ ∃ fault, (a.perform call).answer = .error fault) ∨
    ∃ answer m', m.perform call = some (answer, m') ∧ (a.perform call).answer = .ok answer ∧
      (a.perform call).after.table.Shows m' := by
  cases follows h call with
  | refused _ arena program =>
    rw [program]
    exact Or.inl ⟨arena, _, rfl⟩
  | declined _ arena program =>
    rw [program]
    exact Or.inr ⟨none, m, arena, rfl, h⟩
  | done _ arena program shows' =>
    rw [program]
    exact Or.inr ⟨_, _, arena, rfl, shows'⟩

theorem trail_of_some {answers : List (Option Nat)} {last : Arena} {calls : List Call}
    (h : a.table.Shows m) (run : m.performAll calls = some (answers, last)) :
    (a.trail calls).map (·.answer) = answers.map .ok ∧ (a.performAll calls).table.Shows last := by
  induction calls generalizing a m answers with
  | nil =>
    cases run
    exact ⟨rfl, h⟩
  | cons call rest ih =>
    rcases perform_lockstep h call with ⟨arena, -⟩ | ⟨answer, m', arena, same, shows'⟩
    · rw [Arena.performAll, arena] at run
      cases run
    · rw [Arena.performAll, arena] at run
      obtain ⟨⟨others, final⟩, tail, eq⟩ := Option.map_eq_some_iff.1 run
      cases eq
      obtain ⟨answered, shown⟩ := ih shows' tail
      refine ⟨?_, shown⟩
      rw [trail, List.map_cons, same, answered]
      rfl

theorem trail_of_none {calls : List Call} (h : a.table.Shows m) (run : m.performAll calls = none) :
    ∃ outcome ∈ a.trail calls, ∃ fault, outcome.answer = .error fault := by
  induction calls generalizing a m with
  | nil => cases run
  | cons call rest ih =>
    rcases perform_lockstep h call with ⟨-, fault, refused⟩ | ⟨answer, m', arena, -, shows'⟩
    · exact ⟨_, List.mem_cons_self, fault, refused⟩
    · rw [Arena.performAll, arena] at run
      obtain ⟨outcome, there, refused⟩ := ih shows' (Option.map_eq_none_iff.1 run)
      exact ⟨outcome, List.mem_cons_of_mem _ there, refused⟩

end Allocator

end FirstFit
