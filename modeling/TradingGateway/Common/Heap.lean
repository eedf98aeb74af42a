import Mathlib

/-!
# Heap discipline

A log of what a program does with heap objects, which are named by numbers. The
log is replayed against the set of the objects that are live: an object may be
used and freed only while it is live.

* `heapRun`: the live objects after a log, or `none` at the first event that
  touches an object that is not live.
* `heapRun_append`: logs are replayed one after the other.
* `heapRun_frees`: freeing the objects of a list without repetitions.
-/

namespace TradingGateway.Common

inductive HeapEvent
  | alloc (p : ℕ)
  | use (p : ℕ)
  | free (p : ℕ)
  deriving DecidableEq

/-- The live objects after an event. -/
def HeapEvent.run (live : Finset ℕ) : HeapEvent → Option (Finset ℕ)
  | .alloc p => if p ∈ live then none else some (insert p live)
  | .use p => if p ∈ live then some live else none
  | .free p => if p ∈ live then some (live.erase p) else none

/-- The live objects after a log. -/
def heapRun (live : Finset ℕ) (events : List HeapEvent) : Option (Finset ℕ) :=
  events.foldlM HeapEvent.run live

@[simp] theorem heapRun_nil (live : Finset ℕ) : heapRun live [] = some live := rfl

theorem heapRun_append (live : Finset ℕ) (events events' : List HeapEvent) :
    heapRun live (events ++ events') = (heapRun live events).bind (heapRun · events') :=
  List.foldlM_append

theorem heapRun_alloc {live : Finset ℕ} {p : ℕ} (h : p ∉ live) (events : List HeapEvent) :
    heapRun live (.alloc p :: events) = heapRun (insert p live) events := by
  rw [heapRun, List.foldlM_cons, HeapEvent.run, if_neg h]
  rfl

theorem heapRun_use {live : Finset ℕ} {p : ℕ} (h : p ∈ live) (events : List HeapEvent) :
    heapRun live (.use p :: events) = heapRun live events := by
  rw [heapRun, List.foldlM_cons, HeapEvent.run, if_pos h]
  rfl

theorem heapRun_free {live : Finset ℕ} {p : ℕ} (h : p ∈ live) (events : List HeapEvent) :
    heapRun live (.free p :: events) = heapRun (live.erase p) events := by
  rw [heapRun, List.foldlM_cons, HeapEvent.run, if_pos h]
  rfl

theorem erase_toFinset_cons {p : ℕ} {l : List ℕ} (h : (p :: l).Nodup) :
    (p :: l).toFinset.erase p = l.toFinset := by
  rw [List.toFinset_cons, Finset.erase_insert]
  simpa using (List.nodup_cons.mp h).1

theorem heapRun_frees {l : List ℕ} (h : l.Nodup) :
    heapRun l.toFinset (l.map .free) = some ∅ := by
  induction l with
  | nil => rfl
  | cons p l ih =>
    rw [List.map_cons, heapRun_free (by simp), erase_toFinset_cons h]
    exact ih (List.nodup_cons.mp h).2

end TradingGateway.Common
