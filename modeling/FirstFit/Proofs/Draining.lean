import FirstFit.Proofs.Independence
import FirstFit.Proofs.Sessions

namespace FirstFit

namespace Arena

variable {m : Arena} {r last : Run} {before order : List Run} {units : Nat}

theorem free_fresh (positive : 0 < units) : (fresh units).free = [⟨0, units⟩] :=
  if_neg (Nat.ne_of_gt positive)

theorem Sound.eq_fresh (h : m.Sound) (none : m.used = []) (positive : 0 < m.units) :
    m = fresh m.units := by
  have perm := h.perm_free (fresh_sound m.units) rfl fun r => by rw [none, fresh]
  rw [free_fresh positive, List.perm_singleton] at perm
  rw [fresh, if_neg (Nat.ne_of_gt positive), ← perm, ← none]

theorem used_releaseAll (all : ∀ x ∈ m.used, x ∈ order) : (m.releaseAll order).used = [] := by
  refine List.eq_nil_iff_forall_not_mem.2 fun x hx => ?_
  obtain ⟨xUsed, other⟩ := mem_releaseAll_used.1 hx
  exact other x (all x xUsed) rfl

theorem releaseAll_eq_fresh (h : (m.releaseAll order).Sound) (all : ∀ x ∈ m.used, x ∈ order)
    (positive : 0 < m.units) : m.releaseAll order = fresh m.units := by
  rw [← releaseAll_units m order] at positive ⊢
  exact h.eq_fresh (used_releaseAll all) positive

theorem releaseAll_concat (m : Arena) (before : List Run) (last : Run) :
    m.releaseAll (before ++ [last]) = ((m.releaseAll before).release last).2 := by
  rw [releaseAll, List.foldl_append]
  rfl

theorem merged_of_eq_fresh (fresh : (m.release r).2 = fresh units) (positive : 0 < units) :
    (m.release r).1 = ⟨0, units⟩ := by
  have listed : (m.release r).1 ∈ (m.release r).2.free := List.mem_cons_self
  rwa [fresh, free_fresh positive, List.mem_singleton] at listed

theorem Sound.last_live (h : m.Sound) (live : ∀ r ∈ before ++ [last], r ∈ m.used)
    (distinct : (before ++ [last]).Nodup) : last ∈ (m.releaseAll before).used := by
  have lastUsed : last ∈ m.used := live last (List.mem_append_right _ List.mem_cons_self)
  refine mem_releaseAll_used.2 ⟨lastUsed, fun r hr start => ?_⟩
  have same := h.eq_of_used_start lastUsed (live r (List.mem_append_left _ hr)) start
  exact (List.nodup_append.1 distinct).2.2 r hr last List.mem_cons_self same.symm

end Arena

namespace Allocator

variable {a : Allocator} {m : Arena} {before : List Run} {last : Run} {give : Run → Call}

theorem shows_before_last (gives : ∀ r, (give r).Releases r) (h : a.table.Shows m)
    (live : ∀ r ∈ before ++ [last], r ∈ m.used) (distinct : (before ++ [last]).Nodup) :
    (a.performAll (before.map give)).table.Shows (m.releaseAll before) ∧
      last ∈ (m.releaseAll before).used := by
  have earlier : ∀ r ∈ before, r ∈ m.used := fun r hr => live r (List.mem_append_left _ hr)
  obtain ⟨-, shown⟩ := trail_releaseAll gives h earlier (List.nodup_append.1 distinct).1
  exact ⟨shown, h.sound.last_live live distinct⟩

structure Renewed (units : Nat) (a : Allocator) : Prop where
  whole : a.freeRuns = .ok [⟨0, units⟩]
  same : ∃ fresh, create units = .ok (fresh, .built units) ∧
    ∀ requests, a.AllInPlace requests → a.session requests = fresh.session requests

theorem renewed_of_shows {units : Nat} (small : units ≤ Word.maxUnits) (positive : 0 < units)
    (h : a.table.Shows (Arena.fresh units)) : Renewed units a := by
  obtain ⟨fresh, made, new⟩ := create_shows small
  refine ⟨?_, fresh, made, fun requests inPlace => Twins.session ⟨_, h, new⟩ inPlace⟩
  rw [freeRuns, h.freeRuns_eq, Arena.free_fresh positive]

theorem renewed_of_reaches {units : Nat} {live : Ledger} {before : List Run} {last : Run}
    {give : Run → Call} (reached : Reaches units a live) (all : (before ++ [last]).Perm live)
    (gives : ∀ r, (give r).Releases r) :
    List.Forall₂ (fun r => Returned (give r) r) (before ++ [last])
      (a.trail ((before ++ [last]).map give)) ∧
    ((a.performAll (before.map give)).freeMerged last.start).answer = .ok units ∧
    Renewed units (a.performAll ((before ++ [last]).map give)) := by
  obtain ⟨small, m, shows', rfl, rfl⟩ := reaches_shows reached
  have live : ∀ r ∈ before ++ [last], r ∈ m.used := fun r => all.mem_iff.1
  have distinct : (before ++ [last]).Nodup := all.symm.nodup shows'.sound.nodup_used
  obtain ⟨answers, shown⟩ := trail_releaseAll gives shows' live distinct
  obtain ⟨nearly, lastLive⟩ := shows_before_last gives shows' live distinct
  have positive : 0 < m.units := by
    rw [← Arena.releaseAll_units m before]
    exact Nat.zero_lt_of_lt (nearly.sound.unit_lt (Arena.mem_runs_of_used lastLive))
  have empty := Arena.releaseAll_eq_fresh shown.sound (fun x => all.mem_iff.2) positive
  refine ⟨answers, ?_, ?_⟩
  · rw [Arena.releaseAll_concat] at empty
    rw [freeMerged_answer nearly lastLive, Arena.merged_of_eq_fresh empty positive]
  · rw [empty] at shown
    exact renewed_of_shows small positive shown

def paired : Allocator := performAll ⟨Table.formatted 5⟩ [.alloc 2, .alloc 1]

theorem renewed_of_paired : ∃ fresh, Reaches 5 paired [⟨2, 1⟩, ⟨0, 2⟩] ∧
    ([⟨0, 2⟩] ++ [⟨2, 1⟩] : List Run).Perm [⟨2, 1⟩, ⟨0, 2⟩] ∧
    (∀ r : Run, (Call.freeMerged r.start).Releases r) ∧
    List.Forall₂ (fun r => Returned (.freeMerged r.start) r) [⟨0, 2⟩, ⟨2, 1⟩]
      (paired.trail [.freeMerged 0, .freeMerged 2]) ∧
    ((paired.performAll [.freeMerged 0]).freeMerged 2).answer = .ok 5 ∧
    Renewed 5 (paired.performAll [.freeMerged 0, .freeMerged 2]) ∧
    create 5 = .ok (fresh, .built 5) ∧
    (paired.performAll [.freeMerged 0, .freeMerged 2]).table ≠ fresh.table ∧
    (paired.performAll [.freeMerged 0, .freeMerged 2]).session [.call (.alloc 2), .line] =
      fresh.session [.call (.alloc 2), .line] := by
  have reached : Reaches 5 paired [⟨2, 1⟩, ⟨0, 2⟩] :=
    reaches_of_ledger (by decide) _ (by decide +kernel)
  have all : ([⟨0, 2⟩] ++ [⟨2, 1⟩] : List Run).Perm [⟨2, 1⟩, ⟨0, 2⟩] := .swap ..
  have gives (r : Run) : (Call.freeMerged r.start).Releases r := Or.inr rfl
  obtain ⟨answers, last, renewed⟩ := renewed_of_reaches reached all gives
  have ⟨fresh, made, same⟩ := renewed.same
  refine ⟨fresh, reached, all, gives, answers, last, renewed, made, ?_, same _ (by trivial)⟩
  cases made
  decide +kernel

end Allocator

end FirstFit
