import FirstFit.Proofs.Histories

namespace FirstFit

namespace Allocator

def UsedRun (a : Allocator) (r : Run) : Prop :=
  ∃ runs, a.table.Tiles 0 runs ∧ r ∈ runs ∧ a.table.isFree r.start = .ok false

structure Mirrors (a : Allocator) (m : Arena) : Prop where
  units : a.units = m.units
  free : a.freeRuns = .ok m.free
  used : ∀ r, a.UsedRun r ↔ r ∈ m.used
  distinct : m.used.Nodup

variable {a : Allocator} {m : Arena}

theorem usedRun_iff (h : a.table.Shows m) (r : Run) : a.UsedRun r ↔ r ∈ m.used := by
  obtain ⟨inOrder, perm, tiled⟩ := h.exists_tiles
  constructor
  · rintro ⟨runs, tiles, hr, isFree⟩
    rw [tiles.unique tiled] at hr
    rcases List.mem_append.1 (perm.mem_iff.1 hr) with rFree | rUsed
    · rw [(h.free r rFree).isFree_start h.small] at isFree
      cases isFree
    · exact rUsed
  · intro rUsed
    have rIn := perm.mem_iff.2 (Arena.mem_runs_of_used rUsed)
    exact ⟨inOrder, tiled, rIn, (h.used r rUsed).isFree_start h.small⟩

theorem mirrors_of_shows (h : a.table.Shows m) : a.Mirrors m where
  units := h.units
  free := h.freeRuns_eq
  used := usedRun_iff h
  distinct := h.sound.nodup_used

theorem trail_ok_iff (h : a.table.Shows m) (calls : List Call) :
    (∀ outcome ∈ a.trail calls, ∃ answer, outcome.answer = .ok answer) ↔
      (m.performAll calls).isSome := by
  cases run : m.performAll calls with
  | none =>
    obtain ⟨outcome, there, fault, refused⟩ := trail_of_none h run
    refine ⟨fun allOk => ?_, fun some => by cases some⟩
    obtain ⟨answer, answered⟩ := allOk outcome there
    rw [refused] at answered
    cases answered
  | some done =>
    obtain ⟨answers, last⟩ := done
    refine ⟨fun _ => rfl, fun _ outcome there => ?_⟩
    have answered := List.mem_map_of_mem (f := (·.answer)) there
    rw [(trail_of_some h run).1] at answered
    obtain ⟨answer, -, same⟩ := List.mem_map.1 answered
    exact ⟨answer, same.symm⟩

theorem trail_refines (units : Nat) (small : units ≤ Word.maxUnits) :
    ∃ a record, create units = .ok (a, record) ∧ ∀ calls : List Call,
      ((∀ outcome ∈ a.trail calls, ∃ answer, outcome.answer = .ok answer) ↔
        ((Arena.fresh units).performAll calls).isSome) ∧
      ∀ answers m, (Arena.fresh units).performAll calls = some (answers, m) →
        (a.trail calls).map (·.answer) = answers.map .ok ∧ (a.performAll calls).Mirrors m := by
  obtain ⟨a, made, fresh⟩ := create_shows small
  refine ⟨a, _, made, fun calls => ⟨trail_ok_iff fresh calls, fun answers m run => ?_⟩⟩
  obtain ⟨answered, shows'⟩ := trail_of_some fresh run
  exact ⟨answered, mirrors_of_shows shows'⟩

theorem trail_refines_largest : 32766 ≤ Word.maxUnits ∧
    ∃ a record, create 32766 = .ok (a, record) ∧ ∀ calls : List Call,
      ((∀ outcome ∈ a.trail calls, ∃ answer, outcome.answer = .ok answer) ↔
        ((Arena.fresh 32766).performAll calls).isSome) ∧
      ∀ answers m, (Arena.fresh 32766).performAll calls = some (answers, m) →
        (a.trail calls).map (·.answer) = answers.map .ok ∧ (a.performAll calls).Mirrors m :=
  ⟨by decide, trail_refines 32766 (by decide)⟩

end Allocator

end FirstFit
