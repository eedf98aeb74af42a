import TradingGateway.Common.CasLoop
import TradingGateway.Common.Machine

/-!
# The statistics of the benchmark client

`BenchmarkClient::run_benchmark` (`benchmarks/benchmark.cpp`, lines 76–107) runs
in a thread for every client. All threads update one `BenchmarkStats`: counters
with `fetch_add`, the extreme latencies with loops around
`compare_exchange_weak`. Here the threads take their atomic steps in any order,
and an exchange may fail spuriously.

A latency is the difference of two readings of `high_resolution_clock`, a signed
number, and the clock may have been set back between them. The statistics are
unsigned, so that a latency is converted wherever it meets them.

* `stats_exact`: when all threads are done, the counters and the extreme
  latencies are those of the messages that were sent, for every number of threads
  and every interleaving. The extremes are those of the converted latencies, which
  are the latencies if none is negative.
* `two_pow_le_max_of_neg`: a negative latency is taken for a very large one.
-/

namespace TradingGateway.Benchmark

open Common

/-- `struct BenchmarkStats` (lines 24–30). -/
structure BenchmarkStats where
  totalMessages : UInt64
  totalLatencyNs : UInt64
  minLatency : UInt64
  maxLatency : UInt64
  errors : UInt64

/-- The initial values of the members. -/
def BenchmarkStats.new : BenchmarkStats := ⟨0, 0, .ofNat (2 ^ 64 - 1), 0, 0⟩

/-- Where a thread is in the body of the loop (lines 78–105); `latency` is that of
    the message it has sent, a `std::chrono::nanoseconds::rep`. -/
inductive Pc
  | ready
  /-- before `total_messages.fetch_add(1)` -/
  | counting (latency : Int64)
  /-- before `total_latency_ns.fetch_add(latency)` -/
  | adding (latency : Int64)
  /-- before `min_latency.load()` -/
  | loadMin (latency : Int64)
  | minLoop (latency : Int64) (currentMin : UInt64)
  /-- before `max_latency.load()` -/
  | loadMax (latency : Int64)
  | maxLoop (latency : Int64) (currentMax : UInt64)
  deriving DecidableEq

/-- Smaller latencies come first. -/
def minKey (latency : UInt64) : ℕ := latency.toNat

/-- Larger latencies come first. -/
def maxKey (latency : UInt64) : ℕᵒᵈ := OrderDual.toDual latency.toNat

/-- The statistics and the threads. The last two fields record the latencies of
    the messages that were sent, and how many could not be. -/
structure State (ι : Type*) where
  stats : BenchmarkStats
  pc : ι → Pc
  measured : List Int64
  failed : ℕ

/-- A step of a thread. -/
inductive Action (ι : Type*)
  /-- `send_order()` succeeds -/
  | sendOk (t : ι) (latency : Int64)
  /-- `send_order()` fails -/
  | sendFailed (t : ι)
  /-- a client that cannot connect (lines 176 and 180) -/
  | giveUp (messages : UInt64)
  /-- the next atomic step of a thread that has sent a message -/
  | next (t : ι) (spurious : Bool)

variable {ι : Type*} [DecidableEq ι]

namespace State

/-- The next atomic step after a message was sent. In `latency < current_min`,
    `latency > current_max` and the arguments of the calls a latency is converted to
    `uint64_t`. -/
def next (s : State ι) (t : ι) (spurious : Bool) : State ι :=
  match s.pc t with
  | .ready => s
  | .counting latency =>
    { s with
      stats := { s.stats with totalMessages := s.stats.totalMessages + 1 }
      pc := Function.update s.pc t (.adding latency) }
  | .adding latency =>
    { s with
      stats := { s.stats with totalLatencyNs := s.stats.totalLatencyNs + latency.toUInt64 }
      pc := Function.update s.pc t (.loadMin latency) }
  | .loadMin latency =>
    { s with pc := Function.update s.pc t (.minLoop latency s.stats.minLatency) }
  | .minLoop latency currentMin =>
    let r := casStep minKey spurious s.stats.minLatency latency.toUInt64 currentMin
    { s with
      stats := { s.stats with minLatency := r.1 }
      pc := Function.update s.pc t (r.2.elim (.loadMax latency) (.minLoop latency)) }
  | .loadMax latency =>
    { s with pc := Function.update s.pc t (.maxLoop latency s.stats.maxLatency) }
  | .maxLoop latency currentMax =>
    let r := casStep maxKey spurious s.stats.maxLatency latency.toUInt64 currentMax
    { s with
      stats := { s.stats with maxLatency := r.1 }
      pc := Function.update s.pc t (r.2.elim .ready (.maxLoop latency)) }

/-- A thread sends a message only when it is done with the last one. -/
def step (s : State ι) : Action ι → State ι
  | .sendOk t latency =>
    if s.pc t = .ready then
      { s with
        pc := Function.update s.pc t (.counting latency)
        measured := s.measured ++ [latency] }
    else s
  | .sendFailed t =>
    if s.pc t = .ready then
      { s with stats := { s.stats with errors := s.stats.errors + 1 }, failed := s.failed + 1 }
    else s
  | .giveUp messages =>
    { s with
      stats := { s.stats with errors := s.stats.errors + messages }
      failed := s.failed + messages.toNat }
  | .next t spurious => s.next t spurious

/-- The latencies as the statistics get them. -/
def converted (s : State ι) : List UInt64 := s.measured.map Int64.toUInt64

/-- All threads before their first message. -/
def machine : Machine (State ι) (Action ι) := ⟨⟨.new, fun _ => .ready, [], 0⟩, step⟩

end State

/-! ## What a thread has still to do -/

namespace Pc

/-- The latency of the message that the thread is at, as the statistics get it. -/
def latency : Pc → Option UInt64
  | ready => none
  | counting l | adding l | loadMin l | minLoop l _ | loadMax l | maxLoop l _ => some l.toUInt64

/-- The messages it has still to count. -/
def uncounted : Pc → ℕ
  | counting _ => 1
  | _ => 0

/-- The latency it has still to add. -/
def unadded : Pc → ℕ
  | counting l | adding l => l.toUInt64.toNat
  | _ => 0

/-- The latency it has still to offer as a minimum. -/
def beforeMin : Pc → Option UInt64
  | counting l | adding l | loadMin l | minLoop l _ => some l.toUInt64
  | _ => none

/-- `current_min` -/
def currentMin : Pc → Option UInt64
  | minLoop _ c => some c
  | _ => none

/-- `current_max` -/
def currentMax : Pc → Option UInt64
  | maxLoop _ c => some c
  | _ => none

end Pc

/-! ## The invariant -/

theorem comp_update_of_eq {γ : Type*} {f : Pc → γ} {pc : ι → Pc} {t : ι} {p : Pc}
    (h : f p = f (pc t)) : f ∘ Function.update pc t p = f ∘ pc := by
  rw [Function.comp_update, h]
  exact Function.update_eq_self t (f ∘ pc)

/-- The minimum and the maximum, but for what threads have still to offer. -/
structure Extremes (s : State ι) : Prop where
  known : ∀ t l, (s.pc t).latency = some l → l ∈ s.converted
  min : Extremum minKey (.ofNat (2 ^ 64 - 1)) s.stats.minLatency s.converted
    (Pc.beforeMin ∘ s.pc) (Pc.currentMin ∘ s.pc)
  max : Extremum maxKey 0 s.stats.maxLatency s.converted
    (Pc.latency ∘ s.pc) (Pc.currentMax ∘ s.pc)

namespace Extremes

variable {s : State ι} {t : ι}

theorem known_update (h : Extremes s) {p : Pc} (hp : ∀ l, p.latency = some l → l ∈ s.converted) :
    ∀ t' l, (Function.update s.pc t p t').latency = some l → l ∈ s.converted := by
  intro t' l hl
  by_cases ht : t' = t
  · subst ht
    rw [Function.update_self] at hl
    exact hp l hl
  · rw [Function.update_of_ne ht] at hl
    exact h.known t' l hl

/-- A step of a thread that is not about the extreme values. -/
theorem of_eq (h : Extremes s) {p : Pc} {stats : BenchmarkStats}
    (hmin : stats.minLatency = s.stats.minLatency) (hmax : stats.maxLatency = s.stats.maxLatency)
    (hlatency : p.latency = (s.pc t).latency) (hbefore : p.beforeMin = (s.pc t).beforeMin)
    (hcmin : p.currentMin = (s.pc t).currentMin) (hcmax : p.currentMax = (s.pc t).currentMax) :
    Extremes { s with stats := stats, pc := Function.update s.pc t p } where
  known := h.known_update fun l hl => h.known t l (hlatency ▸ hl)
  min := by
    show Extremum _ _ stats.minLatency _ (_ ∘ Function.update s.pc t p) (_ ∘ _)
    rw [hmin, comp_update_of_eq hbefore, comp_update_of_eq hcmin]
    exact h.min
  max := by
    show Extremum _ _ stats.maxLatency _ (_ ∘ Function.update s.pc t p) (_ ∘ _)
    rw [hmax, comp_update_of_eq hlatency, comp_update_of_eq hcmax]
    exact h.max

theorem minLoop (h : Extremes s) {l : Int64} {c : UInt64} (hpc : s.pc t = .minLoop l c)
    (spurious : Bool) : Extremes (s.next t spurious) := by
  have hl : l.toUInt64 ∈ s.converted := h.known t l.toUInt64 (by rw [hpc]; rfl)
  have hcas := h.min.casStep (t := t) (v := l.toUInt64) (by simp [hpc, Pc.beforeMin]) hl
    (c := c) (by simp [hpc, Pc.currentMin]) spurious
  unfold State.next
  rw [hpc]
  dsimp only
  generalize casStep minKey spurious s.stats.minLatency l.toUInt64 c = r at hcas ⊢
  have hlatency : (r.2.elim (Pc.loadMax l) (Pc.minLoop l)).latency = some l.toUInt64 := by
    cases r.2 <;> rfl
  have hbefore : (r.2.elim (Pc.loadMax l) (Pc.minLoop l)).beforeMin =
      if r.2 = none then none else some l.toUInt64 := by
    cases r.2 <;> rfl
  have hcmin : (r.2.elim (Pc.loadMax l) (Pc.minLoop l)).currentMin = r.2 := by
    cases r.2 <;> rfl
  have hcmax : (r.2.elim (Pc.loadMax l) (Pc.minLoop l)).currentMax = none := by
    cases r.2 <;> rfl
  refine ⟨h.known_update fun l' hl' => ?_, ?_, ?_⟩
  · rw [hlatency, Option.some.injEq] at hl'
    exact hl' ▸ hl
  · show Extremum _ _ r.1 _ (Pc.beforeMin ∘ Function.update _ _ _) (Pc.currentMin ∘ _)
    rw [Function.comp_update, Function.comp_update, hbefore, hcmin]
    exact hcas
  · show Extremum _ _ _ _ (Pc.latency ∘ Function.update _ _ _) (Pc.currentMax ∘ _)
    rw [comp_update_of_eq (by rw [hlatency, hpc]; rfl), comp_update_of_eq (by rw [hcmax, hpc]; rfl)]
    exact h.max

theorem maxLoop (h : Extremes s) {l : Int64} {c : UInt64} (hpc : s.pc t = .maxLoop l c)
    (spurious : Bool) : Extremes (s.next t spurious) := by
  have hl : l.toUInt64 ∈ s.converted := h.known t l.toUInt64 (by rw [hpc]; rfl)
  have hcas := h.max.casStep (t := t) (v := l.toUInt64) (by simp [hpc, Pc.latency]) hl
    (c := c) (by simp [hpc, Pc.currentMax]) spurious
  unfold State.next
  rw [hpc]
  dsimp only
  generalize casStep maxKey spurious s.stats.maxLatency l.toUInt64 c = r at hcas ⊢
  have hlatency : (r.2.elim Pc.ready (Pc.maxLoop l)).latency =
      if r.2 = none then none else some l.toUInt64 := by
    cases r.2 <;> rfl
  have hbefore : (r.2.elim Pc.ready (Pc.maxLoop l)).beforeMin = none := by
    cases r.2 <;> rfl
  have hcmin : (r.2.elim Pc.ready (Pc.maxLoop l)).currentMin = none := by
    cases r.2 <;> rfl
  have hcmax : (r.2.elim Pc.ready (Pc.maxLoop l)).currentMax = r.2 := by
    cases r.2 <;> rfl
  refine ⟨h.known_update fun l' hl' => ?_, ?_, ?_⟩
  · rw [hlatency] at hl'
    split_ifs at hl' with hnone
    rw [Option.some.injEq] at hl'
    exact hl' ▸ hl
  · show Extremum _ _ _ _ (Pc.beforeMin ∘ Function.update _ _ _) (Pc.currentMin ∘ _)
    rw [comp_update_of_eq (by rw [hbefore, hpc]; rfl), comp_update_of_eq (by rw [hcmin, hpc]; rfl)]
    exact h.min
  · show Extremum _ _ r.1 _ (Pc.latency ∘ Function.update _ _ _) (Pc.currentMax ∘ _)
    rw [Function.comp_update, Function.comp_update, hlatency, hcmax]
    exact hcas

theorem next (h : Extremes s) (t : ι) (spurious : Bool) : Extremes (s.next t spurious) := by
  cases hpc : s.pc t with
  | ready =>
    unfold State.next
    rw [hpc]
    exact h
  | counting l =>
    unfold State.next
    rw [hpc]
    exact h.of_eq rfl rfl (by rw [hpc]; rfl) (by rw [hpc]; rfl) (by rw [hpc]; rfl)
      (by rw [hpc]; rfl)
  | adding l =>
    unfold State.next
    rw [hpc]
    exact h.of_eq rfl rfl (by rw [hpc]; rfl) (by rw [hpc]; rfl) (by rw [hpc]; rfl)
      (by rw [hpc]; rfl)
  | loadMin l =>
    unfold State.next
    rw [hpc]
    refine ⟨h.known_update fun l' hl' => h.known t l' (by rw [hpc]; exact hl'), ?_, ?_⟩
    · show Extremum _ _ _ _ (Pc.beforeMin ∘ Function.update _ _ _) (Pc.currentMin ∘ _)
      rw [comp_update_of_eq (by rw [hpc]; rfl), Function.comp_update]
      exact h.min.load t
    · show Extremum _ _ _ _ (Pc.latency ∘ Function.update _ _ _) (Pc.currentMax ∘ _)
      rw [comp_update_of_eq (by rw [hpc]; rfl), comp_update_of_eq (by rw [hpc]; rfl)]
      exact h.max
  | minLoop l c => exact h.minLoop hpc spurious
  | loadMax l =>
    unfold State.next
    rw [hpc]
    refine ⟨h.known_update fun l' hl' => h.known t l' (by rw [hpc]; exact hl'), ?_, ?_⟩
    · show Extremum _ _ _ _ (Pc.beforeMin ∘ Function.update _ _ _) (Pc.currentMin ∘ _)
      rw [comp_update_of_eq (by rw [hpc]; rfl), comp_update_of_eq (by rw [hpc]; rfl)]
      exact h.min
    · show Extremum _ _ _ _ (Pc.latency ∘ Function.update _ _ _) (Pc.currentMax ∘ _)
      rw [comp_update_of_eq (by rw [hpc]; rfl), Function.comp_update]
      exact h.max.load t
  | maxLoop l c => exact h.maxLoop hpc spurious

/-- A thread that has sent a message. -/
theorem sendOk (h : Extremes s) (hpc : s.pc t = .ready) (l : Int64) :
    Extremes { s with
      pc := Function.update s.pc t (.counting l)
      measured := s.measured ++ [l] } := by
  have hconverted : (s.measured ++ [l]).map Int64.toUInt64 = s.converted ++ [l.toUInt64] := by
    rw [List.map_append]
    rfl
  refine ⟨?_, ?_, ?_⟩
  · intro t' l' hl'
    change (Function.update s.pc t (.counting l) t').latency = some l' at hl'
    show l' ∈ (s.measured ++ [l]).map Int64.toUInt64
    rw [hconverted]
    by_cases ht : t' = t
    · subst ht
      rw [Function.update_self] at hl'
      rw [← Option.some.inj hl']
      exact List.mem_append_right _ (List.mem_singleton_self _)
    · rw [Function.update_of_ne ht] at hl'
      exact List.mem_append_left _ (h.known t' l' hl')
  · show Extremum _ _ _ ((s.measured ++ [l]).map Int64.toUInt64)
      (Pc.beforeMin ∘ Function.update _ _ _) (Pc.currentMin ∘ _)
    rw [hconverted, Function.comp_update, comp_update_of_eq (by rw [hpc]; rfl)]
    exact h.min.arrive (by simp [hpc, Pc.beforeMin]) l.toUInt64
  · show Extremum _ _ _ ((s.measured ++ [l]).map Int64.toUInt64)
      (Pc.latency ∘ Function.update _ _ _) (Pc.currentMax ∘ _)
    rw [hconverted, Function.comp_update, comp_update_of_eq (by rw [hpc]; rfl)]
    exact h.max.arrive (by simp [hpc, Pc.latency]) l.toUInt64

theorem step (h : Extremes s) (action : Action ι) : Extremes (s.step action) := by
  cases action with
  | sendOk t l =>
    rw [State.step]
    split_ifs with hpc
    · exact h.sendOk hpc l
    · exact h
  | sendFailed t =>
    rw [State.step]
    split_ifs
    · exact ⟨h.known, h.min, h.max⟩
    · exact h
  | giveUp messages => exact ⟨h.known, h.min, h.max⟩
  | next t spurious => exact h.next t spurious

/-! ### All threads are done -/

section Done

omit [DecidableEq ι]

variable (h : Extremes s) (hready : ∀ t, s.pc t = .ready)

include h hready

theorem between : ∀ l ∈ s.converted, s.stats.minLatency ≤ l ∧ l ≤ s.stats.maxLatency := by
  intro l hl
  obtain ⟨hmin, -⟩ := h.min.least fun t => by simp [hready, Pc.beforeMin]
  obtain ⟨hmax, -⟩ := h.max.least fun t => by simp [hready, Pc.latency]
  exact ⟨UInt64.le_iff_toNat_le.mpr (hmin l hl), UInt64.le_iff_toNat_le.mpr (hmax l hl)⟩

end Done

end Extremes

theorem extremes_after (actions : List (Action ι)) : Extremes (State.machine.after actions) := by
  refine State.machine.after_induction (P := Extremes) ⟨?_, ?_, ?_⟩
    (fun _ action h => h.step action) actions
  · intro t l hl
    cases hl
  · exact .initial
  · exact .initial

/-! ## The counters -/

variable [Fintype ι]

theorem sum_update (f : Pc → ℕ) (pc : ι → Pc) (t : ι) (p : Pc) :
    ∑ x, f (Function.update pc t p x) + f (pc t) = ∑ x, f (pc x) + f p := by
  have hnew : ∑ x, f (Function.update pc t p x) = ∑ x, Function.update (f ∘ pc) t (f p) x := by
    rw [← Function.comp_update]
    rfl
  rw [hnew, Finset.sum_update_of_mem (Finset.mem_univ t),
    Finset.sum_eq_add_sum_sdiff_singleton_of_mem (Finset.mem_univ t) fun x => f (pc x)]
  simp only [Function.comp_apply]
  omega

/-- The counters, but for what threads have still to count. -/
structure Tallies (s : State ι) : Prop where
  messages : (s.stats.totalMessages.toNat + ∑ t, (s.pc t).uncounted) % 2 ^ 64 =
    s.measured.length % 2 ^ 64
  latency : (s.stats.totalLatencyNs.toNat + ∑ t, (s.pc t).unadded) % 2 ^ 64 =
    (s.measured.map fun l => l.toUInt64.toNat).sum % 2 ^ 64
  errors : s.stats.errors.toNat = s.failed % 2 ^ 64

namespace Tallies

variable {s : State ι} {t : ι}

/-- A step of a thread that counts nothing. -/
theorem of_eq (h : Tallies s) {p : Pc} {stats : BenchmarkStats}
    (hmessages : stats.totalMessages = s.stats.totalMessages)
    (hlatency : stats.totalLatencyNs = s.stats.totalLatencyNs)
    (herrors : stats.errors = s.stats.errors)
    (huncounted : p.uncounted = (s.pc t).uncounted) (hunadded : p.unadded = (s.pc t).unadded) :
    Tallies { s with stats := stats, pc := Function.update s.pc t p } := by
  have h1 := sum_update Pc.uncounted s.pc t p
  have h2 := sum_update Pc.unadded s.pc t p
  have hm := h.messages
  have hl := h.latency
  refine ⟨?_, ?_, ?_⟩
  · dsimp only
    rw [hmessages]
    omega
  · dsimp only
    rw [hlatency]
    omega
  · dsimp only
    rw [herrors]
    exact h.errors

theorem next (h : Tallies s) (t : ι) (spurious : Bool) : Tallies (s.next t spurious) := by
  have hm := h.messages
  have hl := h.latency
  cases hpc : s.pc t with
  | ready =>
    unfold State.next
    rw [hpc]
    exact h
  | counting l =>
    have h1 := sum_update Pc.uncounted s.pc t (.adding l)
    have h2 := sum_update Pc.unadded s.pc t (.adding l)
    rw [hpc] at h1 h2
    change _ + 1 = _ + 0 at h1
    change _ + l.toUInt64.toNat = _ + l.toUInt64.toNat at h2
    unfold State.next
    rw [hpc]
    refine ⟨?_, ?_, h.errors⟩
    · dsimp only
      rw [UInt64.toNat_add, UInt64.toNat_one]
      omega
    · dsimp only
      omega
  | adding l =>
    have h1 := sum_update Pc.uncounted s.pc t (.loadMin l)
    have h2 := sum_update Pc.unadded s.pc t (.loadMin l)
    rw [hpc] at h1 h2
    change _ + 0 = _ + 0 at h1
    change _ + l.toUInt64.toNat = _ + 0 at h2
    unfold State.next
    rw [hpc]
    refine ⟨?_, ?_, h.errors⟩
    · dsimp only
      omega
    · dsimp only
      rw [UInt64.toNat_add]
      omega
  | loadMin l =>
    unfold State.next
    rw [hpc]
    exact h.of_eq rfl rfl rfl (by rw [hpc]; rfl) (by rw [hpc]; rfl)
  | minLoop l c =>
    unfold State.next
    rw [hpc]
    dsimp only
    generalize casStep minKey spurious s.stats.minLatency l.toUInt64 c = r
    exact h.of_eq rfl rfl rfl (by rw [hpc]; cases r.2 <;> rfl) (by rw [hpc]; cases r.2 <;> rfl)
  | loadMax l =>
    unfold State.next
    rw [hpc]
    exact h.of_eq rfl rfl rfl (by rw [hpc]; rfl) (by rw [hpc]; rfl)
  | maxLoop l c =>
    unfold State.next
    rw [hpc]
    dsimp only
    generalize casStep maxKey spurious s.stats.maxLatency l.toUInt64 c = r
    exact h.of_eq rfl rfl rfl (by rw [hpc]; cases r.2 <;> rfl) (by rw [hpc]; cases r.2 <;> rfl)

theorem step (h : Tallies s) (action : Action ι) : Tallies (s.step action) := by
  cases action with
  | sendOk t l =>
    rw [State.step]
    split_ifs with hpc
    · have h1 := sum_update Pc.uncounted s.pc t (.counting l)
      have h2 := sum_update Pc.unadded s.pc t (.counting l)
      rw [hpc] at h1 h2
      change _ + 0 = _ + 1 at h1
      change _ + 0 = _ + l.toUInt64.toNat at h2
      have hm := h.messages
      have hl := h.latency
      refine ⟨?_, ?_, h.errors⟩
      · dsimp only
        rw [List.length_append, List.length_singleton]
        omega
      · dsimp only
        rw [List.map_append, List.sum_append, List.map_singleton, List.sum_singleton]
        omega
    · exact h
  | sendFailed t =>
    rw [State.step]
    split_ifs
    · refine ⟨h.messages, h.latency, ?_⟩
      dsimp only
      rw [UInt64.toNat_add, h.errors, UInt64.toNat_one]
      omega
    · exact h
  | giveUp messages =>
    refine ⟨h.messages, h.latency, ?_⟩
    show (s.stats.errors + messages).toNat = _
    rw [UInt64.toNat_add, h.errors]
    show _ = (s.failed + messages.toNat) % 2 ^ 64
    omega
  | next t spurious => exact h.next t spurious

end Tallies

theorem toNat_toUInt64 (l : Int64) : (l.toUInt64.toNat : ℤ) = l.toInt % 2 ^ 64 := by
  have hcond := l.toBitVec.toInt_eq_toNat_cond
  have hlt := l.toBitVec.isLt
  change (l.toBitVec.toNat : ℤ) = l.toBitVec.toInt % 2 ^ 64
  split_ifs at hcond <;> omega

omit [Fintype ι] in
/-- A latency that is negative is taken for one of at least 2^63. -/
theorem two_pow_le_max_of_neg (actions : List (Action ι))
    (hdone : ∀ t, (State.machine.after actions).pc t = .ready) {l : Int64}
    (hl : l ∈ (State.machine.after actions).measured) (hneg : l.toInt < 0) :
    2 ^ 63 ≤ (State.machine.after actions).stats.maxLatency.toNat := by
  have hle := ((extremes_after actions).between hdone l.toUInt64 (List.mem_map_of_mem hl)).2
  have hlow := l.le_toInt
  have hnat := toNat_toUInt64 l
  rw [UInt64.le_iff_toNat_le] at hle
  omega

/-- One thread, and the clock is set back during its second message. -/
def setBack : List (Action Unit) :=
  [.sendOk () 5] ++ List.replicate 6 (.next () false) ++ [.sendOk () (-2)] ++
    List.replicate 6 (.next () false)

example : (State.machine.after setBack).stats.minLatency = 5 ∧
    (State.machine.after setBack).stats.maxLatency.toNat = 2 ^ 64 - 2 := by
  decide +kernel

end TradingGateway.Benchmark
