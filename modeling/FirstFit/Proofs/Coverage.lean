import FirstFit.Proofs.Histories

namespace FirstFit

theorem Partition.countP_contains_eq {hi : Nat} {runs : List Run} (h : Partition 0 hi runs) (u : Nat) :
    runs.countP (fun r => r.Contains u) = if u < hi then 1 else 0 := by
  by_cases inside : u < hi
  · rw [if_pos inside]
    exact h.countP_contains (Nat.zero_le _) inside
  · rw [if_neg inside, List.countP_eq_zero]
    intro r hr holds
    have fits := h.below r hr
    have holds := of_decide_eq_true holds
    simp only [Run.Contains] at holds
    omega

namespace Allocator

structure Known (a : Allocator) (r : Run) (free : Bool) : Prop where
  size : a.size r.start = .ok r.size
  first : a.isFree r.start = .ok free
  last : a.isFree (r.stop - 1) = .ok free

structure Accounted (a : Allocator) (live free : List Run) : Prop where
  listed : a.freeRuns = .ok free
  apart : (live ++ free).Pairwise Run.Apart
  once : ∀ u, (live ++ free).countP (fun r => r.Contains u) = if u < a.units then 1 else 0
  total : ∃ n, a.freeUnits = .ok n ∧ n + Run.total live = a.units
  knowsLive : ∀ r ∈ live, a.Known r false
  knowsFree : ∀ r ∈ free, a.Known r true
  returned : ∀ r ∈ live, (a.free r.start).answer = .ok r.size

variable {a : Allocator} {m : Arena} {r : Run}

theorem known_of_marked {free : Bool} (small : a.units ≤ Word.maxUnits)
    (h : a.table.Marked r free) : a.Known r free := by
  have positive := h.positive
  have inside := h.inside
  have last : ((r.stop - 1 : Nat) : Int) = (r.stop : Int) - 1 := by
    simp only [Run.stop]
    omega
  have startInside : r.start < a.units := by
    simp only [Run.stop, units] at *
    omega
  have lastInside : r.stop - 1 < a.units := by
    simp only [Run.stop, units] at *
    omega
  refine ⟨?_, ?_, ?_⟩
  · rw [size, if_pos startInside, h.size_eq small]
    rfl
  · rw [isFree, if_pos startInside]
    exact h.isFree_start small
  · rw [isFree, if_pos lastInside, last]
    exact h.isFree_last small

theorem free_answer (h : a.table.Shows m) (hr : r ∈ m.used) :
    (a.free r.start).answer = .ok r.size := by
  obtain ⟨t, merges, -⟩ := h.release hr
  rw [free, release_of_used h hr merges]
  rfl

theorem freeMerged_answer (h : a.table.Shows m) (hr : r ∈ m.used) :
    (a.freeMerged r.start).answer = .ok (m.release r).1.size := by
  obtain ⟨t, merges, -⟩ := h.release hr
  rw [freeMerged, release_of_used h hr merges]
  rfl

theorem freeUnits_eq (h : a.table.Shows m) : a.freeUnits = .ok (Run.total m.free) := by
  rw [freeUnits, freeRuns, h.freeRuns_eq]
  rfl

theorem accounted_of_shows (h : a.table.Shows m) : a.Accounted m.used m.free := by
  have partition : Partition 0 a.units (m.used ++ m.free) := by
    rw [units, h.units]
    exact h.sound.partition.perm List.perm_append_comm
  exact {
    listed := h.freeRuns_eq
    apart := partition.apart
    once := partition.countP_contains_eq
    total := ⟨Run.total m.free, freeUnits_eq h, h.sound.total.trans h.units.symm⟩
    knowsLive := fun r hr => known_of_marked h.small (h.used r hr)
    knowsFree := fun r hr => known_of_marked h.small (h.free r hr)
    returned := fun r hr => free_answer h hr }

theorem accounted_of_reaches {units : Nat} {live : Ledger} (h : Reaches units a live) :
    a.units = units ∧ ∃ free, a.Accounted live free := by
  obtain ⟨-, m, shows', same, used⟩ := reaches_shows h
  rw [← used]
  exact ⟨shows'.units.trans same, m.free, accounted_of_shows shows'⟩

theorem accounted_of_vacated : Reaches 5 vacated [⟨2, 1⟩] ∧
    vacated.units = 5 ∧ ∃ free, vacated.Accounted [⟨2, 1⟩] free :=
  ⟨reaches_vacated, accounted_of_reaches reaches_vacated⟩

end Allocator

end FirstFit
