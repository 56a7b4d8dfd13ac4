import FirstFit.Proofs.Effects
import FirstFit.Proofs.Exhaustion

namespace FirstFit

theorem Arena.exists_first {m : Arena} {r : Run} {before after : List Run} {size : Nat}
    (split : m.free = before ++ r :: after) (fits : size ≤ r.size) :
    ∃ f ∈ before ++ [r], m.free.find? (fun f => size ≤ f.size) = some f := by
  rw [split, List.find?_append]
  cases found : before.find? (fun f => size ≤ f.size) with
  | none => exact ⟨r, by simp, by simp [fits]⟩
  | some f => exact ⟨f, List.mem_append_left _ (List.mem_of_find?_eq_some found), rfl⟩

namespace Allocator

variable {a : Allocator} {m : Arena} {r : Run} {call : Call} {size unit : Nat}
  {before after : List Run}

theorem alloc_of_split (h : a.table.Shows m) (split : m.free = before ++ r :: after)
    (short : ∀ f ∈ before, f.size < size) (positive : 0 < size) (fits : size ≤ r.size) :
    a.alloc size =
      ⟨.ok (some r.start), ⟨a.table.taken (Run.starts before) (Run.starts after) r size⟩,
        some (.allocated ⟨r.start, size⟩ r.size)⟩ := by
  have rFree : r ∈ m.free := by simp [split]
  have within := h.sound.size_le_units (Arena.mem_runs_of_free rFree)
  have small := h.arena_small
  have found : m.free.find? (fun f => size ≤ f.size) = some r :=
    List.find?_eq_some_iff_append.2
      ⟨decide_eq_true fits, before, after, split, fun f hf => by simpa using short f hf⟩
  have same : a.units = m.units := h.units
  rw [alloc, if_neg (by omega), if_neg (by omega), edit_ok (h.takeFirst_of_some split found positive).1]

theorem allocAt_of_split (h : a.table.Shows m) (split : m.free = before ++ r :: after)
    (positive : 0 < size) (fits : size ≤ r.size) :
    a.allocAt size r.start =
      ⟨.ok (some r.start), ⟨a.table.taken (Run.starts before) (Run.starts after) r size⟩,
        some (.placed ⟨r.start, size⟩)⟩ := by
  have rFree : r ∈ m.free := by simp [split]
  have within := h.sound.size_le_units (Arena.mem_runs_of_free rFree)
  have inside := h.sound.unit_lt (Arena.mem_runs_of_free rFree)
  have small := h.arena_small
  have same : a.units = m.units := h.units
  rw [allocAt, if_neg (by omega), if_neg (by omega), edit_ok (h.takeAt_of_free split positive fits).1]

theorem split_of_alloc (h : a.table.Shows m) (answered : (a.alloc size).answer = .ok (some unit)) :
    0 < size ∧ ∃ before r after, m.free = before ++ r :: after ∧ r.start = unit ∧ size ≤ r.size ∧
      ∀ f ∈ before, f.size < size := by
  have performed : (a.perform (.alloc size)).answer = .ok (some unit) := answered
  obtain ⟨m', done, -⟩ := arena_of_perform h performed
  obtain ⟨positive, take⟩ := Arena.take_of_alloc done
  obtain ⟨before, r, after, split, will, wont, start, -⟩ := Arena.take_eq_some take
  exact ⟨positive, before, r, after, split, start, of_decide_eq_true will, by simpa using wont⟩

theorem split_of_allocAt (h : a.table.Shows m)
    (answered : (a.allocAt size unit).answer = .ok (some unit)) :
    0 < size ∧ ∃ before r after, m.free = before ++ r :: after ∧ r.start = unit ∧ size ≤ r.size := by
  have performed : (a.perform (.allocAt size unit)).answer = .ok (some unit) := answered
  obtain ⟨m', done, -⟩ := arena_of_perform h performed
  obtain ⟨positive, take⟩ := Arena.take_of_allocAt done
  obtain ⟨before, r, after, split, will, -, start, -⟩ := Arena.take_eq_some take
  exact ⟨positive, before, r, after, split, start, (of_decide_eq_true will).2⟩

theorem split_of_takes {x : Run} (h : a.table.Shows m) (takes : call.Takes x)
    (answered : (a.perform call).answer = .ok (some x.start)) :
    ∃ before r after, m.free = before ++ r :: after ∧ r.start = x.start := by
  rcases takes with rfl | rfl
  · obtain ⟨-, before, r, after, split, start, -, -⟩ := split_of_alloc h answered
    exact ⟨before, r, after, split, start⟩
  · obtain ⟨-, before, r, after, split, start, -⟩ := split_of_allocAt h answered
    exact ⟨before, r, after, split, start⟩

theorem after_of_takes (h : a.table.Shows m) (split : m.free = before ++ r :: after)
    (takes : call.Takes ⟨r.start, size⟩) (answered : (a.perform call).answer = .ok (some r.start)) :
    0 < size ∧ size ≤ r.size ∧
      (a.perform call).after = ⟨a.table.taken (Run.starts before) (Run.starts after) r size⟩ := by
  rcases takes with rfl | rfl
  · obtain ⟨positive, before', r', after', split', start, fits, short⟩ := split_of_alloc h answered
    obtain ⟨rfl, rfl, rfl⟩ := h.sound.split_unique split split' start
    refine ⟨positive, fits, ?_⟩
    rw [perform, alloc_of_split h split short positive fits]
  · obtain ⟨positive, before', r', after', split', start, fits⟩ := split_of_allocAt h answered
    obtain ⟨rfl, rfl, rfl⟩ := h.sound.split_unique split split' start
    refine ⟨positive, fits, ?_⟩
    rw [perform, allocAt_of_split h split positive fits]

structure Agrees (a : Allocator) (size : Nat) : Prop where
  placed : ∀ unit, (a.alloc size).answer = .ok (some unit) →
    (a.allocAt size unit).answer = .ok (some unit) ∧
      (a.allocAt size unit).after = (a.alloc size).after
  searched : ∀ unit, (a.allocAt size unit).answer = .ok (some unit) →
    ∃ before r after, a.freeRuns = .ok (before ++ r :: after) ∧ r.start = unit ∧
      ∃ f ∈ before ++ [r], (a.alloc size).answer = .ok (some f.start)

theorem placed_of_alloc (h : a.table.Shows m) (answered : (a.alloc size).answer = .ok (some unit)) :
    (a.allocAt size unit).answer = .ok (some unit) ∧
      (a.allocAt size unit).after = (a.alloc size).after := by
  obtain ⟨positive, before, r, after, split, rfl, fits, short⟩ := split_of_alloc h answered
  rw [alloc_of_split h split short positive fits, allocAt_of_split h split positive fits]
  exact ⟨rfl, rfl⟩

theorem searched_of_allocAt (h : a.table.Shows m)
    (answered : (a.allocAt size unit).answer = .ok (some unit)) :
    ∃ before r after, a.freeRuns = .ok (before ++ r :: after) ∧ r.start = unit ∧
      ∃ f ∈ before ++ [r], (a.alloc size).answer = .ok (some f.start) := by
  obtain ⟨positive, before, r, after, split, start, fits⟩ := split_of_allocAt h answered
  have rFree : r ∈ m.free := by simp [split]
  have within := h.sound.size_le_units (Arena.mem_runs_of_free rFree)
  obtain ⟨f, hf, found⟩ := Arena.exists_first split fits
  refine ⟨before, r, after, h.freeRuns_eq.trans (congrArg Except.ok split), start, f, hf, ?_⟩
  rw [alloc_answer h positive (by omega), found]
  rfl

theorem agrees_of_reaches {units : Nat} {live : Ledger} (reached : Reaches units a live)
    (size : Nat) : a.Agrees size := by
  obtain ⟨-, m, shows', -, -⟩ := reaches_shows reached
  exact ⟨fun _ answered => placed_of_alloc shows' answered,
    fun _ answered => searched_of_allocAt shows' answered⟩

theorem agrees_of_scattered : Reaches 10 scattered [⟨7, 1⟩, ⟨3, 1⟩, ⟨1, 2⟩] ∧
    scattered.Agrees 2 ∧ (scattered.alloc 2).answer = .ok (some 4) ∧
    (scattered.allocAt 2 4).after = (scattered.alloc 2).after ∧
    (scattered.allocAt 2 8).answer = .ok (some 8) := by
  have agrees := agrees_of_reaches reaches_scattered 2
  have found : (scattered.alloc 2).answer = .ok (some 4) := by decide +kernel
  have placed : (scattered.allocAt 2 8).answer = .ok (some 8) := by decide +kernel
  exact ⟨reaches_scattered, agrees, found, (agrees.placed 4 found).2, placed⟩

end Allocator

end FirstFit
