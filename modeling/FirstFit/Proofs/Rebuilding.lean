import FirstFit.Proofs.Effects
import FirstFit.Proofs.Independence
import FirstFit.Proofs.Refinement
import FirstFit.Proofs.Sessions

namespace FirstFit

namespace Run

def place (r : Run) : Call := .allocAt r.size r.start

def Spread (runs : List Run) : Prop := ∀ f ∈ runs, ∀ g ∈ runs, f.stop ≠ g.start

theorem Spread.subset {xs ys : List Run} (h : Spread ys) (sub : ∀ r ∈ xs, r ∈ ys) : Spread xs :=
  fun f hf g hg => h f (sub f hf) g (sub g hg)

end Run

namespace Arena

variable {m : Arena} {r : Run} {others order : List Run} {units u : Nat}

theorem Sound.mem_used_iff (h : m.Sound) :
    r ∈ m.used ↔ r ∈ m.runs ∧ ∀ f ∈ m.free, r.start ≠ f.start := by
  constructor
  · intro hr
    exact ⟨mem_runs_of_used hr, fun f hf start => h.no_free_start hr f hf start.symm⟩
  · rintro ⟨hr, away⟩
    rcases List.mem_append.1 hr with rFree | rUsed
    · exact absurd rfl (away r rFree)
    · exact rUsed

def emptyFrom (units u : Nat) (used : List Run) : Arena := ⟨units, rest ⟨0, units⟩ u, used⟩

theorem fresh_eq (units : Nat) : fresh units = emptyFrom units 0 [] := by
  rw [fresh, emptyFrom, rest]
  split <;> simp [*]

theorem perform_place {used : List Run} (h : (emptyFrom units r.start used).Sound)
    (small : units ≤ Word.maxUnits) (positive : 0 < r.size) (fits : r.stop ≤ units) :
    (emptyFrom units r.start used).perform r.place =
      some (some r.start, emptyFrom units r.stop (r :: used)) := by
  unfold Run.stop at fits
  have list : (emptyFrom units r.start used).free = [] ++ ⟨r.start, units - r.start⟩ :: [] := by
    rw [emptyFrom, rest, if_neg (by simp only; omega), Nat.zero_add, List.nil_append]
  have room : r.size ≤ units - r.start := by omega
  have left : rest ⟨r.start, units - r.start⟩ r.size = rest ⟨0, units⟩ r.stop := by
    simpa only [Nat.zero_add, Run.stop] using rest_rest (r := ⟨0, units⟩) fits
  have taken := h.perform_allocAt_of_split small positive list room
  rw [carved, List.nil_append, List.append_nil, left] at taken
  exact taken

theorem release_of_spread (spread : Run.Spread (r :: others ++ m.free)) :
    (m.release r).1 = r ∧ (m.release r).2.free = r :: m.free ∧
      Run.Spread (others ++ (m.release r).2.free) := by
  have first : r ∈ r :: others ++ m.free := List.mem_cons_self
  have deeper {f : Run} (hf : f ∈ m.free) : f ∈ r :: others ++ m.free := List.mem_append_right _ hf
  have alone := release_alone fun f hf =>
    ⟨spread f (deeper hf) r first, (spread r first f (deeper hf)).symm⟩
  rw [alone]
  refine ⟨rfl, rfl, spread.subset fun f hf => ?_⟩
  exact List.perm_middle.mem_iff.1 hf

theorem free_releaseAll_of_spread (spread : Run.Spread (order ++ m.free)) :
    (m.releaseAll order).free = order.reverse ++ m.free := by
  induction order generalizing m with
  | nil => rfl
  | cons r others ih =>
    obtain ⟨-, front, spread'⟩ := release_of_spread spread
    change ((m.release r).2.releaseAll others).free = _
    rw [ih spread', front, List.reverse_cons, List.append_assoc, List.singleton_append]

end Arena

theorem Table.Shows.of_perm {t : Table} {m m' : Arena} (h : t.Shows m) (units : m.units = m'.units)
    (free : m.free = m'.free) (used : m.used.Perm m'.used) : t.Shows m' where
  sound := {
    partition := by
      rw [← units, Arena.runs, ← free]
      exact h.sound.partition.perm (used.append_left m.free)
    spread := free ▸ h.sound.spread }
  units := h.units.trans units
  small := h.small
  guarded := h.guarded
  chain := free ▸ h.chain
  free := free ▸ h.free
  used := fun r hr => h.used r (used.mem_iff.2 hr)

namespace Allocator

variable {a : Allocator} {m : Arena} {runs order used : List Run} {units u : Nat}

theorem trail_place (h : a.table.Shows (Arena.emptyFrom units u used))
    (contiguous : Run.Contiguous u runs units) :
    List.Forall₂ (fun r (o : Outcome (Option Nat)) => o.answer = .ok (some r.start))
      runs (a.trail (runs.map Run.place)) ∧
    (a.performAll (runs.map Run.place)).table.Shows
      (Arena.emptyFrom units units (runs.reverse ++ used)) := by
  induction runs generalizing a u used with
  | nil =>
    cases (contiguous : u = units)
    exact ⟨.nil, h⟩
  | cons r others ih =>
    obtain ⟨rfl, positive, tail⟩ := contiguous
    have fits : r.stop ≤ units := by
      have := tail.total
      omega
    obtain ⟨placed, shows'⟩ :=
      perform_of_arena h (Arena.perform_place h.sound h.arena_small positive fits)
    obtain ⟨answers, shown⟩ := ih shows' tail
    refine ⟨.cons placed answers, ?_⟩
    rwa [List.reverse_cons, List.append_assoc, List.singleton_append]

theorem trail_of_spread {give : Run → Call} (gives : ∀ r, (give r).Releases r)
    (h : a.table.Shows m) (live : ∀ r ∈ order, r ∈ m.used) (distinct : order.Nodup)
    (spread : Run.Spread (order ++ m.free)) :
    List.Forall₂ (fun r (o : Outcome (Option Nat)) => o.answer = .ok (some r.size))
      order (a.trail (order.map give)) := by
  induction order generalizing a m with
  | nil => exact .nil
  | cons r others ih =>
    have rLive := live r List.mem_cons_self
    obtain ⟨alone, -, spread'⟩ := Arena.release_of_spread spread
    obtain ⟨-, shows'⟩ := perform_release h rLive (gives r)
    have answered : (a.perform (give r)).answer = .ok (some r.size) := by
      rcases gives r with give | give
      · rw [give]
        exact congrArg (Except.map some) (free_answer h rLive)
      · rw [give]
        refine (congrArg (Except.map some) (freeMerged_answer h rLive)).trans ?_
        rw [alone]
        rfl
    exact .cons answered
      (ih shows' (h.sound.live_rest live distinct) (List.nodup_cons.1 distinct).2 spread')

def rebuilt (fresh : Allocator) (runs free : List Run) (give : Run → Call) : Allocator :=
  (fresh.performAll (runs.map Run.place)).performAll (free.reverse.map give)

structure Rebuilds (fresh a : Allocator) (runs free : List Run) (give : Run → Call) : Prop where
  placed : List.Forall₂ (fun r (o : Outcome (Option Nat)) => o.answer = .ok (some r.start))
    runs (fresh.trail (runs.map Run.place))
  returned : List.Forall₂ (fun r (o : Outcome (Option Nat)) => o.answer = .ok (some r.size))
    free.reverse ((fresh.performAll (runs.map Run.place)).trail (free.reverse.map give))
  listed : (fresh.rebuilt runs free give).freeRuns = .ok free
  used : ∀ r, (fresh.rebuilt runs free give).UsedRun r ↔ a.UsedRun r
  same : ∀ requests, a.AllInPlace requests →
    a.session requests = (fresh.rebuilt runs free give).session requests

theorem rebuilt_shows {fresh : Allocator} {give : Run → Call} (gives : ∀ r, (give r).Releases r)
    (h : a.table.Shows m) (new : fresh.table.Shows (Arena.fresh m.units))
    (tiles : a.table.Tiles 0 runs) :
    List.Forall₂ (fun r (o : Outcome (Option Nat)) => o.answer = .ok (some r.start))
      runs (fresh.trail (runs.map Run.place)) ∧
    List.Forall₂ (fun r (o : Outcome (Option Nat)) => o.answer = .ok (some r.size))
      m.free.reverse ((fresh.performAll (runs.map Run.place)).trail (m.free.reverse.map give)) ∧
    (fresh.rebuilt runs m.free give).table.Shows m := by
  rw [Arena.fresh_eq] at new
  obtain ⟨placed, full⟩ := trail_place new (h.units ▸ tiles.contiguous)
  have none : (Arena.emptyFrom m.units m.units (runs.reverse ++ [])).free = [] := if_pos rfl
  have live : ∀ r ∈ m.free.reverse, r ∈ runs.reverse ++ [] := by
    intro r hr
    rw [List.mem_reverse] at hr
    rw [List.append_nil, List.mem_reverse]
    exact (h.mem_runs_iff tiles).2 (Arena.mem_runs_of_free hr)
  have distinct : m.free.reverse.Nodup := (List.reverse_perm m.free).nodup_iff.2 h.sound.nodup_free
  have spread : Run.Spread (m.free.reverse ++ (Arena.emptyFrom m.units m.units
      (runs.reverse ++ [])).free) := by
    rw [none, List.append_nil]
    exact Run.Spread.subset h.sound.spread fun r hr => List.mem_reverse.1 hr
  have returned := trail_of_spread gives full live distinct spread
  obtain ⟨-, shown⟩ := trail_releaseAll gives full live distinct
  refine ⟨placed, returned, shown.of_perm (Arena.releaseAll_units ..) ?_ ?_⟩
  · rw [Arena.free_releaseAll_of_spread spread, none, List.append_nil, List.reverse_reverse]
  · rw [List.perm_ext_iff_of_nodup shown.sound.nodup_used h.sound.nodup_used]
    intro r
    rw [Arena.mem_releaseAll_used, h.sound.mem_used_iff, ← h.mem_runs_iff tiles]
    simp [Arena.emptyFrom]

theorem rebuilds_of_reaches {live : Ledger} {give : Run → Call} (reached : Reaches units a live)
    (gives : ∀ r, (give r).Releases r) :
    ∃ runs free fresh, a.table.Tiles 0 runs ∧ a.freeRuns = .ok free ∧
      create units = .ok (fresh, .built units) ∧ Rebuilds fresh a runs free give := by
  obtain ⟨small, m, shows', rfl, rfl⟩ := reaches_shows reached
  obtain ⟨runs, -, tiles⟩ := shows'.exists_tiles
  obtain ⟨fresh, made, new⟩ := create_shows small
  obtain ⟨placed, returned, again⟩ := rebuilt_shows gives shows' new tiles
  refine ⟨runs, m.free, fresh, tiles, shows'.freeRuns_eq, made, placed, returned, again.freeRuns_eq,
    fun r => ?_, fun requests inPlace => Twins.session ⟨m, shows', again⟩ inPlace⟩
  rw [usedRun_iff again, usedRun_iff shows']

theorem rebuilds_of_gapped : ∃ fresh, Reaches 7 (gapped [0, 3]) [⟨5, 1⟩, ⟨2, 1⟩] ∧
    (∀ r : Run, (Call.freeMerged r.start).Releases r) ∧
    (gapped [0, 3]).table.Tiles 0 [⟨0, 2⟩, ⟨2, 1⟩, ⟨3, 2⟩, ⟨5, 1⟩, ⟨6, 1⟩] ∧
    (gapped [0, 3]).freeRuns = .ok [⟨3, 2⟩, ⟨0, 2⟩, ⟨6, 1⟩] ∧
    create 7 = .ok (fresh, .built 7) ∧
    Rebuilds fresh (gapped [0, 3]) [⟨0, 2⟩, ⟨2, 1⟩, ⟨3, 2⟩, ⟨5, 1⟩, ⟨6, 1⟩]
      [⟨3, 2⟩, ⟨0, 2⟩, ⟨6, 1⟩] fun r => .freeMerged r.start := by
  have gives (r : Run) : (Call.freeMerged r.start).Releases r := Or.inr rfl
  have tiled : (gapped [0, 3]).table.Tiles 0 [⟨0, 2⟩, ⟨2, 1⟩, ⟨3, 2⟩, ⟨5, 1⟩, ⟨6, 1⟩] :=
    ⟨rfl, by decide, by decide +kernel, rfl, by decide, by decide +kernel, rfl, by decide,
      by decide +kernel, rfl, by decide, by decide +kernel, rfl, by decide, by decide +kernel, rfl⟩
  have freed : (gapped [0, 3]).freeRuns = .ok [⟨3, 2⟩, ⟨0, 2⟩, ⟨6, 1⟩] := by decide +kernel
  obtain ⟨runs, free, fresh, tiles, listed, made, rebuilds⟩ :=
    rebuilds_of_reaches reaches_gapped gives
  obtain rfl := tiles.unique tiled
  obtain rfl := Except.ok.inj (listed.symm.trans freed)
  exact ⟨fresh, reaches_gapped, gives, tiled, freed, made, rebuilds⟩

end Allocator

end FirstFit
