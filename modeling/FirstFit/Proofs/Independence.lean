import FirstFit.Proofs.Coverage
import FirstFit.Proofs.Vacancy
import Mathlib.Data.List.Forall2

namespace FirstFit

def Call.Releases (call : Call) (r : Run) : Prop := call = .free r.start ∨ call = .freeMerged r.start

namespace Arena

variable {m : Arena} {r x : Run} {rest order order' : List Run}

def releaseAll (m : Arena) (order : List Run) : Arena :=
  order.foldl (fun m r => (m.release r).2) m

theorem releaseAll_units (m : Arena) (order : List Run) : (m.releaseAll order).units = m.units := by
  induction order generalizing m with
  | nil => rfl
  | cons r rest ih => exact ih (m.release r).2

theorem mem_releaseAll_used :
    x ∈ (m.releaseAll order).used ↔ x ∈ m.used ∧ ∀ r ∈ order, x.start ≠ r.start := by
  induction order generalizing m with
  | nil => simp [releaseAll]
  | cons r rest ih =>
    change x ∈ ((m.release r).2.releaseAll rest).used ↔ _
    have here : x ∈ (m.release r).2.used ↔ x ∈ m.used ∧ x.start ≠ r.start := by
      simp [release]
    rw [ih, here, List.forall_mem_cons, and_assoc]

theorem Sound.live_rest (h : m.Sound) (live : ∀ x ∈ r :: rest, x ∈ m.used)
    (distinct : (r :: rest).Nodup) : ∀ x ∈ rest, x ∈ (m.release r).2.used := by
  intro x hx
  have xLive := live x (List.mem_cons_of_mem _ hx)
  refine List.mem_filter.2 ⟨xLive, decide_eq_true fun start => ?_⟩
  have same := h.eq_of_used_start xLive (live r List.mem_cons_self) start
  exact (List.nodup_cons.1 distinct).1 (same ▸ hx)

end Arena

namespace Allocator

variable {a b : Allocator} {m m' : Arena} {r : Run} {call : Call}
  {order order' : List Run}

def Returned (call : Call) (r : Run) (o : Outcome (Option Nat)) : Prop :=
  ∃ n, o.answer = .ok (some n) ∧ (call = .free r.start → n = r.size)

theorem perform_release (h : a.table.Shows m) (hr : r ∈ m.used) (releases : call.Releases r) :
    Returned call r (a.perform call) ∧ (a.perform call).after.table.Shows (m.release r).2 := by
  obtain ⟨t, merges, shows'⟩ := h.release hr
  have released := release_of_used h hr merges
  rcases releases with rfl | rfl
  · rw [perform, free, released]
    exact ⟨⟨_, rfl, fun _ => rfl⟩, shows'⟩
  · rw [perform, freeMerged, released]
    exact ⟨⟨_, rfl, fun other => by cases other⟩, shows'⟩

theorem trail_releaseAll {give : Run → Call} (gives : ∀ r, (give r).Releases r)
    (h : a.table.Shows m) (live : ∀ r ∈ order, r ∈ m.used) (distinct : order.Nodup) :
    List.Forall₂ (fun r => Returned (give r) r) order (a.trail (order.map give)) ∧
      (a.performAll (order.map give)).table.Shows (m.releaseAll order) := by
  induction order generalizing a m with
  | nil => exact ⟨.nil, h⟩
  | cons r rest ih =>
    obtain ⟨answered, shows'⟩ := perform_release h (live r List.mem_cons_self) (gives r)
    obtain ⟨others, shown⟩ :=
      ih shows' (h.sound.live_rest live distinct) (List.nodup_cons.1 distinct).2
    exact ⟨.cons answered others, shown⟩

structure SameFree (a b : Allocator) : Prop where
  runs : ∃ free free', a.freeRuns = .ok free ∧ b.freeRuns = .ok free' ∧ free.Perm free'
  total : ∃ n, a.freeUnits = .ok n ∧ b.freeUnits = .ok n

structure Canonical (units : Nat) (a : Allocator) (live : Ledger) : Prop where
  gaps : ∃ free, a.freeRuns = .ok free ∧ free.Nodup ∧ ∀ r, r ∈ free ↔ Gap units live r
  history : ∀ b live', Reaches units b live' → (∀ r, r ∈ live ↔ r ∈ live') → a.SameFree b
  order : ∀ order order' : List Run, (∀ r ∈ order, r ∈ live) → order.Nodup → order.Perm order' →
    let drop := order.map fun r => Call.free r.start
    let drop' := order'.map fun r => Call.free r.start
    List.Forall₂ (fun r (o : Outcome (Option Nat)) => o.answer = .ok (some r.size))
      order (a.trail drop) ∧
    List.Forall₂ (fun r (o : Outcome (Option Nat)) => o.answer = .ok (some r.size))
      order' (a.trail drop') ∧
    (a.performAll drop).SameFree (a.performAll drop')

theorem sameFree_of_shows (ha : a.table.Shows m) (hb : b.table.Shows m')
    (units : m.units = m'.units) (used : ∀ r, r ∈ m.used ↔ r ∈ m'.used) : a.SameFree b := by
  have perm := ha.sound.perm_free hb.sound units used
  refine ⟨⟨_, _, ha.freeRuns_eq, hb.freeRuns_eq, perm⟩, _, freeUnits_eq ha, ?_⟩
  have sizes : Run.total m'.free = Run.total m.free := (perm.symm.map _).sum_nat
  rw [freeUnits_eq hb, sizes]

theorem trail_free (h : a.table.Shows m) (live : ∀ r ∈ order, r ∈ m.used) (distinct : order.Nodup) :
    List.Forall₂ (fun r (o : Outcome (Option Nat)) => o.answer = .ok (some r.size))
      order (a.trail (order.map fun r => .free r.start)) ∧
    (a.performAll (order.map fun r => .free r.start)).table.Shows (m.releaseAll order) := by
  obtain ⟨answers, shown⟩ := trail_releaseAll (fun _ => Or.inl rfl) h live distinct
  refine ⟨answers.imp fun r o returned => ?_, shown⟩
  obtain ⟨n, answer, size⟩ := returned
  rw [answer, size rfl]

theorem sameFree_of_perm (ha : a.table.Shows (m.releaseAll order))
    (hb : b.table.Shows (m.releaseAll order')) (perm : order.Perm order') : a.SameFree b := by
  refine sameFree_of_shows ha hb ?_ fun r => ?_
  · rw [Arena.releaseAll_units, Arena.releaseAll_units]
  · simp only [Arena.mem_releaseAll_used, perm.mem_iff]

theorem canonical_of_reaches {units : Nat} {live : Ledger} (reached : Reaches units a live) :
    Canonical units a live := by
  obtain ⟨-, m, shows', rfl, rfl⟩ := reaches_shows reached
  refine ⟨⟨m.free, shows'.freeRuns_eq, shows'.sound.nodup_free, shows'.sound.mem_free_iff⟩, ?_, ?_⟩
  · intro b live' reached' same
    obtain ⟨-, m', shown, units, rfl⟩ := reaches_shows reached'
    exact sameFree_of_shows shows' shown units.symm same
  · intro order order' live distinct perm
    have live' : ∀ r ∈ order', r ∈ m.used := fun r hr => live r (perm.mem_iff.2 hr)
    obtain ⟨answers, shown⟩ := trail_free shows' live distinct
    obtain ⟨answers', shown'⟩ := trail_free shows' live' (perm.nodup distinct)
    exact ⟨answers, answers', sameFree_of_perm shown shown' perm⟩

def gapped (order : List Nat) : Allocator :=
  performAll ⟨Table.formatted 7⟩ ([2, 1, 2, 1].map .alloc ++ order.map .free)

theorem reaches_gapped : Reaches 7 (gapped [0, 3]) [⟨5, 1⟩, ⟨2, 1⟩] :=
  reaches_of_ledger (by decide) _ (by decide +kernel)

theorem canonical_of_two_histories : Reaches 7 (gapped [0, 3]) [⟨5, 1⟩, ⟨2, 1⟩] ∧
    Reaches 7 (gapped [3, 0]) [⟨5, 1⟩, ⟨2, 1⟩] ∧
    (gapped [0, 3]).freeRuns ≠ (gapped [3, 0]).freeRuns ∧
    Canonical 7 (gapped [0, 3]) [⟨5, 1⟩, ⟨2, 1⟩] ∧ (gapped [0, 3]).SameFree (gapped [3, 0]) ∧
    ((gapped [0, 3]).performAll [.free 5, .free 2]).SameFree
      ((gapped [0, 3]).performAll [.free 2, .free 5]) := by
  have downward : Reaches 7 (gapped [3, 0]) [⟨5, 1⟩, ⟨2, 1⟩] :=
    reaches_of_ledger (by decide) _ (by decide +kernel)
  have canonical := canonical_of_reaches reaches_gapped
  refine ⟨reaches_gapped, downward, ?_, canonical, ?_, ?_⟩
  · decide +kernel
  · exact canonical.history _ _ downward fun _ => Iff.rfl
  · exact (canonical.order [⟨5, 1⟩, ⟨2, 1⟩] [⟨2, 1⟩, ⟨5, 1⟩] (fun _ hr => hr) (by decide)
      (.swap ..)).2.2

end Allocator

end FirstFit
