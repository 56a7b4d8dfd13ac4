import FirstFit.Proofs.Histories
import FirstFit.Proofs.Vacancy

namespace FirstFit

namespace Arena.Sound

variable {m : Arena} {f : Run} {size : Nat}

theorem find?_eq_none_iff (h : m.Sound) (positive : 1 ≤ size) :
    m.free.find? (fun r => size ≤ r.size) = none ↔
      ¬ ∃ unit, Vacant m.units m.used ⟨unit, size⟩ := by
  rw [List.find?_eq_none]
  constructor
  · rintro tooShort ⟨unit, vacant⟩
    obtain ⟨f, hf, room⟩ := h.exists_free_of_vacant vacant positive
    have short := tooShort f hf
    simp only [decide_eq_true_eq, Run.Within, Run.stop] at short room
    omega
  · intro noRoom f hf fits
    have front := Run.front_within (of_decide_eq_true fits)
    exact noRoom ⟨f.start, (h.vacant_of_free hf).within front⟩

theorem vacant_of_find? (h : m.Sound)
    (found : m.free.find? (fun r => size ≤ r.size) = some f) :
    Vacant m.units m.used ⟨f.start, size⟩ := by
  have fits : size ≤ f.size := by simpa using List.find?_some found
  exact (h.vacant_of_free (List.mem_of_find?_eq_some found)).within (Run.front_within fits)

end Arena.Sound

namespace Allocator

variable {a : Allocator} {m : Arena} {size : Nat}

theorem alloc_answer (h : a.table.Shows m) (positive : 1 ≤ size) (within : size ≤ m.units) :
    (a.alloc size).answer =
      .ok ((m.free.find? fun r => size ≤ r.size).map (·.start)) :=
  (perform_answer h (.alloc size)).trans (Arena.answer_alloc h.arena_small positive within)

theorem alloc_of_reaches {units : Nat} {live : Ledger} (reached : Reaches units a live)
    (positive : 1 ≤ size) (within : size ≤ units) :
    (∃ answer, (a.alloc size).answer = .ok answer) ∧
    ((a.alloc size).answer = .ok none ↔ ¬ ∃ unit, Vacant units live ⟨unit, size⟩) ∧
    ∀ unit, (a.alloc size).answer = .ok (some unit) →
      Vacant units live ⟨unit, size⟩ ∧ (unit = 0 ∨ ∃ x ∈ live, x.Contains (unit - 1)) := by
  obtain ⟨-, m, shows', same, used⟩ := reaches_shows reached
  rw [← same] at within ⊢
  rw [← used, alloc_answer shows' positive within]
  refine ⟨⟨_, rfl⟩, ?_, fun unit taken => ?_⟩
  · rw [Except.ok.injEq, Option.map_eq_none_iff]
    exact shows'.sound.find?_eq_none_iff positive
  · obtain ⟨f, found, rfl⟩ := Option.map_eq_some_iff.1 (Except.ok.inj taken)
    have hf := List.mem_of_find?_eq_some found
    exact ⟨shows'.sound.vacant_of_find? found, shows'.sound.used_of_start hf⟩

theorem alloc_of_vacated : Reaches 5 vacated [⟨2, 1⟩] ∧ 1 ≤ 3 ∧ 3 ≤ 5 ∧
    (∃ answer, (vacated.alloc 3).answer = .ok answer) ∧
    ((vacated.alloc 3).answer = .ok none ↔ ¬ ∃ unit, Vacant 5 [⟨2, 1⟩] ⟨unit, 3⟩) ∧
    ∀ unit, (vacated.alloc 3).answer = .ok (some unit) →
      Vacant 5 [⟨2, 1⟩] ⟨unit, 3⟩ ∧ (unit = 0 ∨ ∃ x ∈ [⟨2, 1⟩], Run.Contains x (unit - 1)) :=
  ⟨reaches_vacated, by decide, by decide,
    alloc_of_reaches reaches_vacated (by decide) (by decide)⟩

end Allocator

end FirstFit
