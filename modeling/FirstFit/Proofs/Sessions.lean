import FirstFit.Allocator.History
import FirstFit.Proofs.Coverage

namespace FirstFit

namespace Table

variable {s t : Table} {m : Arena} {runs : List Run} {r : Run} {free : Bool}

theorem Marked.of_same (h : s.Marked r free) (units : t.units = s.units) (same : SameRun s t r) :
    t.Marked r free :=
  h.congr units same.first.symm (fun long => (same.last long).symm)
    (fun long => (same.second long).symm) (fun long => (same.lastSize long).symm)

theorem Shows.mem_runs_iff (h : s.Shows m) (tiles : s.Tiles 0 runs) : r ∈ runs ↔ r ∈ m.runs := by
  obtain ⟨inOrder, perm, tiled⟩ := h.exists_tiles
  rw [tiles.unique tiled, perm.mem_iff]

theorem Agree.links (agree : Agree runs s t) (h : s.Shows m) (tiles : s.Tiles 0 runs) {v : Int}
    (hv : v ∈ head :: Run.starts m.free) : SameLinks (s.word v) (t.word v) := by
  rcases List.mem_cons.1 hv with rfl | hv
  · rw [agree.top]
    exact ⟨rfl, rfl⟩
  · obtain ⟨r, hr, rfl⟩ := Run.mem_starts.1 hv
    have rIn := (h.mem_runs_iff tiles).2 (Arena.mem_runs_of_free hr)
    exact (agree.runs r rIn).links (h.free r hr).firstFree

theorem Shows.of_agree (h : s.Shows m) (tiles : s.Tiles 0 runs) (agree : Agree runs s t) :
    t.Shows m where
  sound := h.sound
  units := agree.units.symm.trans h.units
  small := by
    rw [← agree.units]
    exact h.small
  guarded := {
    top := by
      rw [← agree.top]
      exact h.guarded.top
    bottom := agree.bottom.symm.trans h.guarded.bottom }
  chain := h.chain.congr agree.units.symm
    (fun _ hv => linkAt_congr agree.units.symm fun _ => (agree.links h tiles hv).next.symm)
    (fun _ hv => linkAt_congr agree.units.symm fun _ => (agree.links h tiles hv).prev.symm)
  free := fun r hr => (h.free r hr).of_same agree.units.symm
    (agree.runs r ((h.mem_runs_iff tiles).2 (Arena.mem_runs_of_free hr)))
  used := fun r hr => (h.used r hr).of_same agree.units.symm
    (agree.runs r ((h.mem_runs_iff tiles).2 (Arena.mem_runs_of_used hr)))

end Table

namespace Allocator

def Twins (a b : Allocator) : Prop := ∃ m, a.table.Shows m ∧ b.table.Shows m

namespace Twins

variable {a b : Allocator} {r : Run} {runs : List Run} {request : Request}

theorem perform (h : a.Twins b) (call : Call) :
    (a.perform call).answer = (b.perform call).answer ∧
      (a.perform call).record = (b.perform call).record ∧
      (a.perform call).after.Twins (b.perform call).after := by
  obtain ⟨m, ha, hb⟩ := h
  refine ⟨?_, ?_, m.next call, shows_next ha call, shows_next hb call⟩
  · rw [perform_answer ha, perform_answer hb]
  · rw [perform_record ha, perform_record hb]

theorem units (h : a.Twins b) : a.units = b.units := by
  obtain ⟨m, ha, hb⟩ := h
  exact ha.units.trans hb.units.symm

theorem freeRuns (h : a.Twins b) : a.freeRuns = b.freeRuns := by
  obtain ⟨m, ha, hb⟩ := h
  exact ha.freeRuns_eq.trans hb.freeRuns_eq.symm

theorem freeUnits (h : a.Twins b) : a.freeUnits = b.freeUnits := by
  rw [Allocator.freeUnits, Allocator.freeUnits, h.freeRuns]

theorem summary (h : a.Twins b) : a.summary = b.summary := by
  rw [Allocator.summary, Allocator.summary, h.freeRuns, h.units]

theorem known (h : a.Twins b) (tiles : a.table.Tiles 0 runs) (hr : r ∈ runs) :
    ∃ free, a.Known r free ∧ b.Known r free := by
  obtain ⟨m, ha, hb⟩ := h
  rcases List.mem_append.1 ((ha.mem_runs_iff tiles).1 hr) with rFree | rUsed
  · exact ⟨true, known_of_marked ha.small (ha.free r rFree),
      known_of_marked hb.small (hb.free r rFree)⟩
  · exact ⟨false, known_of_marked ha.small (ha.used r rUsed),
      known_of_marked hb.small (hb.used r rUsed)⟩

theorem size {unit : Nat} (h : a.Twins b) (starts : a.StartsRun unit) : a.size unit = b.size unit := by
  obtain ⟨runs, tiles, r, hr, rfl⟩ := starts
  obtain ⟨free, ka, kb⟩ := h.known tiles hr
  exact ka.size.trans kb.size.symm

theorem isFree {unit : Nat} (h : a.Twins b) (borders : a.StartsRun unit ∨ a.EndsRun unit) :
    a.isFree unit = b.isFree unit := by
  rcases borders with ⟨runs, tiles, r, hr, rfl⟩ | ⟨runs, tiles, r, hr, last⟩
  · obtain ⟨free, ka, kb⟩ := h.known tiles hr
    exact ka.first.trans kb.first.symm
  · obtain ⟨free, ka, kb⟩ := h.known tiles hr
    obtain rfl : unit = r.stop - 1 := by omega
    exact ka.last.trans kb.last.symm

theorem look {x y : Except Fault Reply} (h : a.Twins b) (same : x = y) :
    (a.look x).answer = (b.look y).answer ∧ (a.look x).record = (b.look y).record ∧
      (a.look x).after.Twins (b.look y).after :=
  ⟨same, rfl, h⟩

theorem serve (h : a.Twins b) (inPlace : a.InPlace request) :
    (a.serve request).answer = (b.serve request).answer ∧
      (a.serve request).record = (b.serve request).record ∧
      (a.serve request).after.Twins (b.serve request).after := by
  cases request with
  | call call =>
    obtain ⟨answer, record, after⟩ := h.perform call
    exact ⟨congrArg (Except.map _) answer, record, after⟩
  | freeRuns => exact h.look (congrArg (Except.map _) h.freeRuns)
  | freeUnits => exact h.look (congrArg (Except.map _) h.freeUnits)
  | units => exact h.look (congrArg (fun n => Except.ok (Reply.count n)) h.units)
  | line => exact h.look (congrArg (Except.map _) h.summary)
  | compact => exact h.look (congrArg (Except.map _) h.summary)
  | indented => exact h.look (congrArg (Except.map _) h.summary)
  | size unit => exact h.look (congrArg (Except.map _) (h.size inPlace))
  | isFree unit => exact h.look (congrArg (Except.map _) (h.isFree inPlace))

theorem session {requests : List Request} (h : a.Twins b) (inPlace : a.AllInPlace requests) :
    a.session requests = b.session requests := by
  induction requests generalizing a b with
  | nil => rfl
  | cons request rest ih =>
    obtain ⟨here, later⟩ := inPlace
    obtain ⟨answer, record, after⟩ := h.serve here
    rw [Allocator.session, Allocator.session, answer, record, ih after later]

end Twins

theorem session_of_agree {units : Nat} {a : Allocator} {live : Ledger} {runs : List Run} {t : Table}
    (reached : Reaches units a live) (tiles : a.table.Tiles 0 runs)
    (agree : Table.Agree runs a.table t) {requests : List Request}
    (inPlace : a.AllInPlace requests) :
    a.session requests = (Allocator.mk t).session requests := by
  obtain ⟨-, m, shows', -, -⟩ := reaches_shows reached
  exact Twins.session ⟨m, shows', shows'.of_agree tiles agree⟩ inPlace

def fronted : Allocator := performAll ⟨Table.formatted 10⟩ [.alloc 2, .alloc 4, .free 0]

def garbled : Table :=
  (((fronted.table.put 2 0x40000000).put 3 0xFFFF8004).put 4 0xFFFFFFFF).put 10 0

theorem session_of_agree_garbled : fronted.table.word 4 ≠ garbled.word 4 ∧
    Reaches 10 fronted [⟨2, 4⟩] ∧ fronted.table.Tiles 0 [⟨0, 2⟩, ⟨2, 4⟩, ⟨6, 4⟩] ∧
    Table.Agree [⟨0, 2⟩, ⟨2, 4⟩, ⟨6, 4⟩] fronted.table garbled ∧
    fronted.AllInPlace [.size 2, .isFree 5, .call (.free 2), .call (.alloc 7), .compact] ∧
    fronted.session [.size 2, .isFree 5, .call (.free 2), .call (.alloc 7), .compact] =
      (Allocator.mk garbled).session
        [.size 2, .isFree 5, .call (.free 2), .call (.alloc 7), .compact] := by
  have reached : Reaches 10 fronted [⟨2, 4⟩] := reaches_of_ledger (by decide) _ (by decide +kernel)
  have tiles : fronted.table.Tiles 0 [⟨0, 2⟩, ⟨2, 4⟩, ⟨6, 4⟩] :=
    ⟨rfl, by decide, rfl, rfl, by decide, rfl, rfl, by decide, rfl, rfl⟩
  have agree : Table.Agree [⟨0, 2⟩, ⟨2, 4⟩, ⟨6, 4⟩] fronted.table garbled := by decide +kernel
  have inPlace :
      fronted.AllInPlace [.size 2, .isFree 5, .call (.free 2), .call (.alloc 7), .compact] :=
    ⟨⟨_, tiles, ⟨2, 4⟩, by decide, rfl⟩, Or.inr ⟨_, tiles, ⟨2, 4⟩, by decide, rfl⟩, trivial,
      trivial, trivial, trivial⟩
  refine ⟨?_, reached, tiles, agree, inPlace, session_of_agree reached tiles agree inPlace⟩
  decide +kernel

end Allocator

end FirstFit
