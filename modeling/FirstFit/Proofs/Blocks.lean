import FirstFit.Proofs.Draining
import FirstFit.Proofs.Effects

namespace FirstFit

namespace Arena

variable {m : Arena} {r f whole last block : Run} {others order : List Run} {lo hi : Nat}

namespace Sound

theorem start_eq_iff (h : m.Sound) (hf : f ∈ m.free) (inF : f.Contains lo) :
    f.start = lo ↔ lo = 0 ∨ ∃ x ∈ m.used, x.Contains (lo - 1) := by
  constructor
  · rintro rfl
    exact h.used_of_start hf
  · rintro (rfl | ⟨x, hx, inX⟩)
    · exact Nat.le_zero.1 inF.1
    · apply Classical.byContradiction
      intro ne
      have before : f.Contains (lo - 1) := by
        simp only [Run.Contains] at *
        omega
      exact (h.vacant_of_free hf).clear _ before x hx inX

theorem apart_head (h : m.Sound) (list : m.free = whole :: others) (hf : f ∈ others) :
    f.stop < whole.start ∨ whole.stop < f.start := by
  have wholeFree : whole ∈ m.free := by simp [list]
  have fFree : f ∈ m.free := by simp [list, hf]
  have split : m.free = [] ++ whole :: others := list
  obtain ⟨-, apart⟩ := h.apart_of_split split (List.mem_append_left _ hf)
  have above := h.spread f fFree whole wholeFree
  have below := h.spread whole wholeFree f fFree
  simp only [Run.Apart] at apart
  omega

theorem within_of_vacant (h : m.Sound) (hf : f ∈ m.free) (vacant : Vacant m.units m.used block)
    (positive : 0 < r.size) (inF : r.Within f) (inBlock : r.Within block) : block.Within f := by
  have first := Run.contains_start positive
  obtain ⟨g, hg, wider⟩ := h.exists_free_of_vacant vacant (first.within inBlock).positive
  have same : g = f := h.partition.eq_of_contains (mem_runs_of_free hg) (mem_runs_of_free hf)
    ((first.within inBlock).within wider) (first.within inF)
  exact same ▸ wider

theorem vacant_releaseAll (h : m.Sound) (live : ∀ r ∈ order, r ∈ m.used)
    (tiled : Partition lo hi order) (positive : lo < hi) :
    Vacant (m.releaseAll order).units (m.releaseAll order).used ⟨lo, hi - lo⟩ where
  inside := by
    obtain ⟨r, hr, inR⟩ := tiled.covers (hi - 1) (by omega) (by omega)
    have fits := h.partition.below r (mem_runs_of_used (live r hr))
    have last := inR.2
    rw [releaseAll_units]
    simp only [Run.stop] at *
    omega
  clear := by
    intro u inside x hx inX
    simp only [Run.Contains, Run.stop] at inside
    obtain ⟨r, hr, inR⟩ := tiled.covers u (by omega) (by omega)
    obtain ⟨xUsed, other⟩ := mem_releaseAll_used.1 hx
    have same := h.partition.eq_of_contains (mem_runs_of_used xUsed)
      (mem_runs_of_used (live r hr)) inX inR
    exact other r hr (congrArg Run.start same)

end Sound

theorem used_before_releaseAll (tiled : Partition lo hi order) :
    (lo = 0 ∨ ∃ x ∈ (m.releaseAll order).used, x.Contains (lo - 1)) ↔
      (lo = 0 ∨ ∃ x ∈ m.used, x.Contains (lo - 1)) := by
  by_cases top : lo = 0
  · simp [top]
  constructor
  · refine Or.imp_right ?_
    rintro ⟨x, hx, inX⟩
    exact ⟨x, (mem_releaseAll_used.1 hx).1, inX⟩
  · refine Or.imp_right ?_
    rintro ⟨x, hx, inX⟩
    refine ⟨x, mem_releaseAll_used.2 ⟨hx, fun r hr start => ?_⟩, inX⟩
    have low := tiled.above r hr
    have := inX.1
    omega

end Arena

namespace Allocator

variable {a : Allocator} {m : Arena} {lo hi units : Nat} {live : Ledger} {before : List Run}
  {last : Run} {give : Run → Call}

structure Joined (a : Allocator) (live : Ledger) (lo hi : Nat) (whole : Run) (others : List Run) :
    Prop where
  listed : a.freeRuns = .ok (whole :: others)
  low : whole.start ≤ lo
  high : hi ≤ whole.stop
  apart : ∀ f ∈ others, f.stop < whole.start ∨ whole.stop < f.start
  again : (a.alloc (hi - lo)).answer = .ok (some whole.start)
  flush : whole.start = lo ↔ lo = 0 ∨ ∃ x ∈ live, x.Contains (lo - 1)

theorem joined_of_shows {whole : Run} {others : List Run} (h : a.table.Shows m)
    (list : m.free = whole :: others) (positive : lo < hi)
    (within : Run.Within ⟨lo, hi - lo⟩ whole)
    (fenced : (lo = 0 ∨ ∃ x ∈ m.used, x.Contains (lo - 1)) ↔
      (lo = 0 ∨ ∃ x ∈ live, x.Contains (lo - 1))) :
    a.Joined live lo hi whole others := by
  have wholeFree : whole ∈ m.free := by simp [list]
  obtain ⟨low, high⟩ := within
  change lo + (hi - lo) ≤ whole.start + whole.size at high
  change whole.start ≤ lo at low
  have room : hi - lo ≤ whole.size := by omega
  have inWhole : whole.Contains lo := ⟨low, by simp only [Run.stop]; omega⟩
  have again := h.sound.perform_takes_head h.arena_small list (Nat.sub_pos_of_lt positive) room
    (Or.inl rfl)
  exact {
    listed := h.freeRuns_eq.trans (congrArg Except.ok list)
    low := low
    high := by simp only [Run.stop]; omega
    apart := fun f hf => h.sound.apart_head list hf
    again := (perform_of_arena h again).1
    flush := (h.sound.start_eq_iff wholeFree inWhole).trans fenced }

theorem joined_of_reaches (reached : Reaches units a live) (gives : ∀ r, (give r).Releases r)
    (given : ∀ r ∈ before ++ [last], r ∈ live) (tiled : Partition lo hi (before ++ [last])) :
    List.Forall₂ (fun r => Returned (give r) r) (before ++ [last])
      (a.trail ((before ++ [last]).map give)) ∧
    ∃ whole others,
      ((a.performAll (before.map give)).freeMerged last.start).answer = .ok whole.size ∧
      (a.performAll ((before ++ [last]).map give)).Joined live lo hi whole others := by
  obtain ⟨-, m, shows', rfl, rfl⟩ := reaches_shows reached
  obtain ⟨answers, shown⟩ := trail_releaseAll gives shows' given tiled.nodup
  obtain ⟨nearly, lastLive⟩ := shows_before_last gives shows' given tiled.nodup
  have lastIn : last ∈ before ++ [last] := List.mem_append_right _ List.mem_cons_self
  have low := tiled.above last lastIn
  have high := tiled.below last lastIn
  have size := tiled.start_lt_stop lastIn
  have list : (m.releaseAll (before ++ [last])).free =
      ((m.releaseAll before).release last).1 :: (m.releaseAll before).freeApart last := by
    rw [Arena.releaseAll_concat, Arena.free_release]
  have vacant := shows'.sound.vacant_releaseAll given tiled (by omega)
  have within := shown.sound.within_of_vacant (by simp [list]) vacant
    (tiled.positive last lastIn) ((m.releaseAll before).within_release last)
    ⟨low, by simp only [Run.stop] at *; omega⟩
  have joined := joined_of_shows shown list (by omega) within (Arena.used_before_releaseAll tiled)
  exact ⟨answers, _, _, freeMerged_answer nearly lastLive, joined⟩

def blocked : Allocator :=
  performAll ⟨Table.formatted 12⟩ ([1, 2, 3, 1, 1, 1].map .alloc ++ [0, 7].map .free)

theorem joined_inside_out : Reaches 12 blocked [⟨8, 1⟩, ⟨6, 1⟩, ⟨3, 3⟩, ⟨1, 2⟩] ∧
    (∀ r : Run, (Call.free r.start).Releases r) ∧
    (∀ r ∈ ([⟨1, 2⟩, ⟨6, 1⟩] ++ [⟨3, 3⟩] : List Run),
      r ∈ ([⟨8, 1⟩, ⟨6, 1⟩, ⟨3, 3⟩, ⟨1, 2⟩] : List Run)) ∧
    Partition 1 7 ([⟨1, 2⟩, ⟨6, 1⟩] ++ [⟨3, 3⟩]) ∧
    List.Forall₂ (fun r => Returned (.free r.start) r) [⟨1, 2⟩, ⟨6, 1⟩, ⟨3, 3⟩]
      (blocked.trail [.free 1, .free 6, .free 3]) ∧
    ((blocked.performAll [.free 1, .free 6]).freeMerged 3).answer = .ok 8 ∧
    (blocked.performAll [.free 1, .free 6, .free 3]).Joined [⟨8, 1⟩, ⟨6, 1⟩, ⟨3, 3⟩, ⟨1, 2⟩] 1 7 ⟨0, 8⟩
      [⟨9, 3⟩] := by
  have reached : Reaches 12 blocked [⟨8, 1⟩, ⟨6, 1⟩, ⟨3, 3⟩, ⟨1, 2⟩] :=
    reaches_of_ledger (by decide) _ (by decide +kernel)
  have gives (r : Run) : (Call.free r.start).Releases r := Or.inl rfl
  have given : ∀ r ∈ ([⟨1, 2⟩, ⟨6, 1⟩] ++ [⟨3, 3⟩] : List Run),
      r ∈ ([⟨8, 1⟩, ⟨6, 1⟩, ⟨3, 3⟩, ⟨1, 2⟩] : List Run) := by decide
  have inOrder : Run.Contiguous 1 [⟨1, 2⟩, ⟨3, 3⟩, ⟨6, 1⟩] 7 :=
    ⟨rfl, by decide, rfl, by decide, rfl, by decide, rfl⟩
  have tiled : Partition 1 7 ([⟨1, 2⟩, ⟨6, 1⟩] ++ [⟨3, 3⟩]) :=
    (Partition.of_contiguous inOrder).perm (.cons _ (.swap ..))
  obtain ⟨answers, whole, others, merged, joined⟩ := joined_of_reaches reached gives given tiled
  have listed : (blocked.performAll [.free 1, .free 6, .free 3]).freeRuns = .ok [⟨0, 8⟩, ⟨9, 3⟩] := by
    decide +kernel
  cases Except.ok.inj (listed.symm.trans joined.listed)
  exact ⟨reached, gives, given, tiled, answers, merged, joined⟩

end Allocator

end FirstFit
