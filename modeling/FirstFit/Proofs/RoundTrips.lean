import FirstFit.Proofs.Effects
import FirstFit.Proofs.Independence
import FirstFit.Proofs.Refinement

namespace FirstFit

namespace Arena

variable {m : Arena} {r : Run} {call : Call}

theorem Sound.above_eq_none (h : m.Sound)
    (fenced : r.start = 0 ∨ ∃ x ∈ m.used, x.Contains (r.start - 1)) : m.above r = none := by
  refine List.find?_eq_none.2 fun f hf => ?_
  simp only [decide_eq_true_eq]
  intro meet
  have fIn := mem_runs_of_free hf
  have size := h.partition.start_lt_stop fIn
  rcases fenced with top | ⟨x, hx, inX⟩
  · omega
  · have inF : f.Contains (r.start - 1) := ⟨by omega, by omega⟩
    exact (h.vacant_of_free hf).clear _ inF x hx inX

theorem Sound.takes_again (h : m.Sound) (small : m.units ≤ Word.maxUnits) (hr : r ∈ m.used)
    (none : m.above r = none) (takes : call.Takes r) :
    ∃ m', (m.release r).2.perform call = some (some r.start, m') ∧ m'.units = m.units ∧
      ∀ x, x ∈ m.used ↔ x ∈ m'.used := by
  have start : (m.release r).1.start = r.start := start_release_of_none none
  have fits : r.size ≤ (m.release r).1.size := by
    have within := (m.within_release r).2
    simp only [Run.stop] at within
    omega
  have positive := h.partition.positive r (mem_runs_of_used hr)
  have takes' : call.Takes ⟨(m.release r).1.start, r.size⟩ := by rwa [start]
  have taken := (h.release hr).perform_takes_head small (m.free_release r) positive fits takes'
  rw [start] at taken
  refine ⟨_, taken, rfl, fun x => ?_⟩
  rw [(h.used_perm hr).mem_iff, carved, start]
  rfl

end Arena

namespace Allocator

variable {a : Allocator} {m : Arena} {r : Run} {before after : List Run} {size : Nat}
  {give take : Call}

structure Rejoins (a : Allocator) (before : List Run) (r : Run) (after : List Run) (size : Nat) :
    Prop where
  own : (a.free r.start).answer = .ok size
  merged : (a.freeMerged r.start).answer = .ok r.size
  front : ∀ give : Call, give.Releases ⟨r.start, size⟩ →
    (a.perform give).after.freeRuns = .ok (r :: (before ++ after))
  again : ∀ give : Call, give.Releases ⟨r.start, size⟩ →
    ((a.perform give).after.alloc size).answer = .ok (some r.start)

structure Restores (a : Allocator) (r : Run) (give take : Call) : Prop where
  given : Returned give r (a.perform give)
  taken : ((a.perform give).after.perform take).answer = .ok (some r.start)
  free : a.SameFree ((a.perform give).after.perform take).after
  used : ∀ x, a.UsedRun x ↔ ((a.perform give).after.perform take).after.UsedRun x

structure Reuses (a : Allocator) (live : Ledger) : Prop where
  rejoins : ∀ (before : List Run) (r : Run) (after : List Run) (size : Nat) (take : Call),
    a.freeRuns = .ok (before ++ r :: after) → take.Takes ⟨r.start, size⟩ →
      (a.perform take).answer = .ok (some r.start) →
        (a.perform take).after.Rejoins before r after size
  restores : ∀ r ∈ live, (r.start = 0 ∨ ∃ x ∈ live, x.Contains (r.start - 1)) →
    ∀ give take : Call, give.Releases r → take.Takes r → a.Restores r give take

theorem rejoins_of_shows (h : a.table.Shows m) (split : m.free = before ++ r :: after)
    (takes : take.Takes ⟨r.start, size⟩) (taken : (a.perform take).answer = .ok (some r.start)) :
    (a.perform take).after.Rejoins before r after size := by
  obtain ⟨m', done, shows'⟩ := arena_of_perform h taken
  obtain ⟨positive, fits, rfl⟩ := h.sound.carved_of_takes split takes done
  have back := Arena.release_carved h.sound split positive fits
  have live : ⟨r.start, size⟩ ∈ (m.carved before r after size).used := List.mem_cons_self
  have given (give : Call) (releases : give.Releases ⟨r.start, size⟩) :
      ((a.perform take).after.perform give).after.table.Shows
        { m with free := r :: (before ++ after) } := by
    have shown := (perform_release shows' live releases).2
    rwa [back] at shown
  refine ⟨free_answer shows' live, ?_, fun give releases => (given give releases).freeRuns_eq,
    fun give releases => ?_⟩
  · rw [freeMerged_answer shows' live, back]
  · have shown := given give releases
    have again := shown.sound.perform_takes_head h.arena_small rfl positive fits (Or.inl rfl)
    exact (perform_of_arena shown again).1

theorem restores_of_shows (h : a.table.Shows m) (hr : r ∈ m.used)
    (fenced : r.start = 0 ∨ ∃ x ∈ m.used, x.Contains (r.start - 1)) (gives : give.Releases r)
    (takes : take.Takes r) : a.Restores r give take := by
  obtain ⟨given, shows'⟩ := perform_release h hr gives
  have none := h.sound.above_eq_none fenced
  obtain ⟨m', done, units, used⟩ := h.sound.takes_again h.arena_small hr none takes
  obtain ⟨taken, shown⟩ := perform_of_arena shows' done
  refine ⟨given, taken, sameFree_of_shows h shown units.symm used, fun x => ?_⟩
  rw [usedRun_iff h, usedRun_iff shown, used]

theorem reuses_of_reaches {units : Nat} {live : Ledger} (reached : Reaches units a live) :
    a.Reuses live := by
  obtain ⟨-, m, shows', -, rfl⟩ := reaches_shows reached
  refine ⟨fun before r after size take listed takes taken => ?_,
    fun r hr fenced give take gives takes => restores_of_shows shows' hr fenced gives takes⟩
  have split : m.free = before ++ r :: after := Except.ok.inj (shows'.freeRuns_eq.symm.trans listed)
  exact rejoins_of_shows shows' split takes taken

theorem reuses_of_scattered : Reaches 10 scattered [⟨7, 1⟩, ⟨3, 1⟩, ⟨1, 2⟩] ∧
    scattered.Reuses [⟨7, 1⟩, ⟨3, 1⟩, ⟨1, 2⟩] ∧
    scattered.freeRuns = .ok ([⟨0, 1⟩] ++ ⟨4, 3⟩ :: [⟨8, 2⟩]) ∧
    (scattered.perform (.alloc 2)).answer = .ok (some 4) ∧
    (scattered.perform (.alloc 2)).after.Rejoins [⟨0, 1⟩] ⟨4, 3⟩ [⟨8, 2⟩] 2 ∧
    scattered.Restores ⟨3, 1⟩ (.freeMerged 3) (.allocAt 1 3) := by
  have taken : (scattered.perform (.alloc 2)).answer = .ok (some 4) := by decide +kernel
  have reuses := reuses_of_reaches reaches_scattered
  refine ⟨reaches_scattered, reuses, freeRuns_scattered, taken, ?_, ?_⟩
  · exact reuses.rejoins _ ⟨4, 3⟩ _ 2 _ freeRuns_scattered (Or.inl rfl) taken
  · exact reuses.restores ⟨3, 1⟩ (by decide) (Or.inr ⟨⟨1, 2⟩, by decide, by decide⟩) _ _
      (Or.inr rfl) (Or.inr rfl)

end Allocator

end FirstFit
