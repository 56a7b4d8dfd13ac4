import FirstFit.Allocator.History
import FirstFit.Proofs.Taking
import Mathlib.Data.List.Nodup
import Mathlib.Data.List.Perm.Subperm

namespace FirstFit

namespace Table

def polls (t : Table) : Nat → Int → Except Fault (List (Option Run))
  | 0, _ => .ok []
  | n + 1, u => do
      let (run, after) ← t.visit u
      return run :: (← t.polls n after)

theorem polls_head (t : Table) (n : Nat) : t.polls n head = .ok (List.replicate n none) := by
  induction n with
  | zero => rfl
  | succ n ih =>
    rw [polls, visit_head]
    simp only [bind, Except.bind, ih]
    rfl

theorem polls_eq {t : Table} {v : Int} {runs : List Run} (h : Leads t.next v (Run.starts runs) head)
    (sizes : ∀ r ∈ runs, t.size r.start = .ok r.size) (n : Nat) :
    t.polls n ((Run.starts runs).headD head) = .ok ((List.range n).map (runs[·]?)) := by
  induction runs generalizing v n with
  | nil =>
    change t.polls n head = _
    simp [polls_head]
  | cons r rest ih =>
    cases n with
    | zero => rfl
    | succ n =>
      have tail : Leads t.next r.start (Run.starts rest) head := h.2
      have others := ih tail (fun s hs => sizes s (List.mem_cons_of_mem _ hs)) n
      change t.polls (n + 1) r.start = _
      rw [polls, visit_start tail.first (sizes r List.mem_cons_self), List.range_succ_eq_map]
      simp only [bind, Except.bind, others, List.map_cons, List.map_map]
      rfl

end Table

namespace Arena.Sound

variable {m : Arena}

theorem nodup_starts (h : m.Sound) : (m.free.map (·.start)).Nodup := by
  refine List.Nodup.map_on (fun f hf g hg same => ?_) h.nodup_free
  exact h.partition.eq_of_start (mem_runs_of_free hf) (mem_runs_of_free hg) same

theorem length_free_le (h : m.Sound) : m.free.length ≤ m.used.length + 1 := by
  have sub : m.free.map (·.start) ⊆ 0 :: m.used.map (·.stop) := by
    intro u hu
    obtain ⟨f, hf, rfl⟩ := List.mem_map.1 hu
    by_cases top : f.start = 0
    · rw [top]
      exact List.mem_cons_self
    · obtain ⟨q, hq, meet⟩ := h.partition.exists_stop (mem_runs_of_free hf) (Nat.pos_of_ne_zero top)
      rcases List.mem_append.1 hq with qFree | qUsed
      · exact absurd meet (h.spread q qFree f hf)
      · exact List.mem_cons_of_mem _ (List.mem_map.2 ⟨q, qUsed, meet⟩)
  simpa using (List.subperm_of_subset h.nodup_starts sub).length_le

theorem length_free_le_half (h : m.Sound) : m.free.length ≤ (m.units + 1) / 2 := by
  have total := h.total
  have free := Run.length_le_total fun r hr => h.partition.positive r (mem_runs_of_free hr)
  have used := Run.length_le_total fun r hr => h.partition.positive r (mem_runs_of_used hr)
  have few := h.length_free_le
  omega

end Arena.Sound

namespace Allocator

variable {a : Allocator} {m : Arena} {live : Ledger} {units : Nat}

def polls (a : Allocator) (n : Nat) : Except Fault (List (Option Run)) := do
  a.table.polls n (← a.firstStop)

structure Ends (a : Allocator) (live : Ledger) (free : List Run) : Prop where
  polls : ∀ n, a.polls n = .ok ((List.range n).map (free[·]?))
  distinct : (free.map (·.start)).Nodup
  few : free.length ≤ live.length + 1
  half : free.length ≤ (a.units + 1) / 2
  search : ∀ size : Nat, ∃ first found, a.firstStop = .ok first ∧ a.table.search size = .ok found ∧
    ∀ steps ≥ free.length, a.table.searchFrom size steps first = .ok found
  alloc : ∀ size, (∃ answer, (a.alloc size).answer = .ok answer) ∨
    size > Word.maxUnits ∧ (a.alloc size).answer = .error (.requestTooLarge size)
  looks : ∀ request ∈ [Request.freeRuns, .freeUnits, .line, .compact, .indented],
    ∃ reply, (a.serve request).answer = .ok reply

theorem polls_of_shows (h : a.table.Shows m) (n : Nat) :
    a.polls n = .ok ((List.range n).map (m.free[·]?)) := by
  rw [polls, firstStop, h.chain.next_head]
  exact Table.polls_eq h.chain.forward h.free_size_eq n

theorem search_of_shows (h : a.table.Shows m) (size : Nat) :
    ∃ first found, a.firstStop = .ok first ∧ a.table.search size = .ok found ∧
      ∀ steps ≥ m.free.length, a.table.searchFrom size steps first = .ok found :=
  ⟨_, _, h.chain.next_head, h.search_eq size, fun _ enough =>
    Table.searchFrom_eq h.chain.forward h.free_size_eq enough⟩

theorem alloc_of_shows (h : a.table.Shows m) (size : Nat) :
    (∃ answer, (a.alloc size).answer = .ok answer) ∨
      size > Word.maxUnits ∧ (a.alloc size).answer = .error (.requestTooLarge size) := by
  by_cases large : size > Word.maxUnits
  · right
    rw [alloc, if_pos large]
    exact ⟨large, rfl⟩
  · left
    rcases perform_lockstep h (.alloc size) with ⟨arena, -⟩ | ⟨answer, _, -, answered, -⟩
    · rw [Arena.perform, if_neg large] at arena
      cases arena
    · exact ⟨answer, answered⟩

theorem looks_of_shows (h : a.table.Shows m) :
    ∀ request ∈ [Request.freeRuns, .freeUnits, .line, .compact, .indented],
      ∃ reply, (a.serve request).answer = .ok reply := by
  have runs : a.freeRuns = .ok m.free := h.freeRuns_eq
  simp [serve, look, freeUnits, summary, runs, Except.map]

theorem ends_of_reaches (reached : Reaches units a live) :
    ∃ free, a.freeRuns = .ok free ∧ a.Ends live free := by
  obtain ⟨-, m, h, -, rfl⟩ := reaches_shows reached
  have half := h.sound.length_free_le_half
  rw [← h.units] at half
  exact ⟨m.free, h.freeRuns_eq, polls_of_shows h, h.sound.nodup_starts, h.sound.length_free_le, half,
    search_of_shows h, alloc_of_shows h, looks_of_shows h⟩

def alternating : Allocator :=
  performAll ⟨Table.formatted 5⟩ ([1, 1, 1, 1, 1].map .alloc ++ [0, 2, 4].map .free)

theorem ends_of_alternating : Reaches 5 alternating [⟨3, 1⟩, ⟨1, 1⟩] ∧
    alternating.freeRuns = .ok [⟨4, 1⟩, ⟨2, 1⟩, ⟨0, 1⟩] ∧
    alternating.Ends [⟨3, 1⟩, ⟨1, 1⟩] [⟨4, 1⟩, ⟨2, 1⟩, ⟨0, 1⟩] := by
  have reached : Reaches 5 alternating [⟨3, 1⟩, ⟨1, 1⟩] :=
    reaches_of_ledger (by decide) _ (by decide +kernel)
  have listed : alternating.freeRuns = .ok [⟨4, 1⟩, ⟨2, 1⟩, ⟨0, 1⟩] := by decide +kernel
  obtain ⟨free, same, ends⟩ := ends_of_reaches reached
  cases listed.symm.trans same
  exact ⟨reached, listed, ends⟩

end Allocator

end FirstFit
