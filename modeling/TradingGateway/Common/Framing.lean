import Mathlib

/-!
# Messages in a stream

A reader puts what it receives into a buffer and takes messages off the start of
the buffer for as long as there is a complete one; a message may also end it.
What it finds at the start of a buffer must not change when more arrives, once it
is complete.

* `drain`, `receive`: the reader at one buffer, and at a stream cut into chunks.
* `Drains`, `Receives`: the same where it comes to an end.
* `Receives.drains`, `Drains.receives`: it comes to the same end however the stream
  is cut.
* `not_drains_iff`: it never comes to an end if and only if it gets to a message
  that takes nothing off the buffer.
-/

namespace TradingGateway.Common

variable {α μ : Type*}

/-- What is at the start of a buffer: no complete message, one that takes `n`
    symbols, or one that ends the reader. -/
inductive Scan (μ : Type*)
  | wait
  | take (n : ℕ) (m : μ)
  | fail (m : μ)

structure Framing (α μ : Type*) where
  scan : List α → Scan μ
  le_of_take : ∀ {b n m}, scan b = .take n m → n ≤ b.length
  take_append : ∀ {b n m} e, scan b = .take n m → scan (b ++ e) = .take n m
  fail_append : ∀ {b m} e, scan b = .fail m → scan (b ++ e) = .fail m

/-- The messages so far, whether the last one has ended the reader, and the buffer. -/
structure Reader (α μ : Type*) where
  log : List μ
  failed : Bool
  buffer : List α

/-- The same messages and the same end, and the same buffer unless a message has
    ended the reader. -/
structure Reader.Same (r r' : Reader α μ) : Prop where
  log : r.log = r'.log
  failed : r.failed = r'.failed
  buffer : r.failed = false → r.buffer = r'.buffer

namespace Framing

variable (F : Framing α μ)

/-- The messages in a buffer; `none` if there are more than `fuel` passes. -/
def drain : ℕ → List μ → List α → Option (Reader α μ)
  | 0, _, _ => none
  | fuel + 1, log, b =>
    match F.scan b with
    | .wait => some ⟨log, false, b⟩
    | .take n m => drain fuel (log ++ [m]) (b.drop n)
    | .fail m => some ⟨log ++ [m], true, b⟩

/-- The messages in a stream that is received in chunks. -/
def receive (fuel : ℕ) : Reader α μ → List (List α) → Option (Reader α μ)
  | r, [] => some r
  | r, data :: chunks =>
    (F.drain fuel r.log (r.buffer ++ data)).bind fun r =>
      if r.failed then some r else receive fuel r chunks

/-! ## One buffer -/

/-- The reader comes to an end with the buffer `b`. -/
inductive Drains : List μ → List α → Reader α μ → Prop
  | wait {log b} (h : F.scan b = .wait) : Drains log b ⟨log, false, b⟩
  | take {log b n m r} (h : F.scan b = .take n m) (h' : Drains (log ++ [m]) (b.drop n) r) :
    Drains log b r
  | fail {log b m} (h : F.scan b = .fail m) : Drains log b ⟨log ++ [m], true, b⟩

variable {F} {log : List μ} {b e : List α} {r r' : Reader α μ}

theorem drains_of_drain {fuel : ℕ} (h : F.drain fuel log b = some r) : F.Drains log b r := by
  induction fuel generalizing log b with
  | zero => cases h
  | succ fuel ih =>
    rw [drain] at h
    split at h
    · next hscan =>
      obtain rfl := Option.some.inj h
      exact .wait hscan
    · next hscan => exact .take hscan (ih h)
    · next hscan =>
      obtain rfl := Option.some.inj h
      exact .fail hscan

theorem Drains.drain (h : F.Drains log b r) :
    ∃ fuel, ∀ k, F.drain (fuel + k) log b = some r := by
  induction h with
  | wait hscan =>
    refine ⟨1, fun k => ?_⟩
    rw [Nat.add_comm, Framing.drain, hscan]
  | fail hscan =>
    refine ⟨1, fun k => ?_⟩
    rw [Nat.add_comm, Framing.drain, hscan]
  | take hscan _ ih =>
    obtain ⟨fuel, hfuel⟩ := ih
    refine ⟨fuel + 1, fun k => ?_⟩
    rw [Nat.add_right_comm, Framing.drain, hscan]
    exact hfuel k

theorem Drains.unique (h : F.Drains log b r) (h' : F.Drains log b r') : r = r' := by
  obtain ⟨fuel, hfuel⟩ := h.drain
  obtain ⟨fuel', hfuel'⟩ := h'.drain
  have heq := hfuel fuel'
  rw [Nat.add_comm, hfuel' fuel] at heq
  exact (Option.some.inj heq).symm

/-- What is left is no complete message. -/
theorem Drains.scan (h : F.Drains log b r) (hr : r.failed = false) : F.scan r.buffer = .wait := by
  induction h with
  | wait hscan => exact hscan
  | take _ _ ih => exact ih hr
  | fail _ => cases hr

/-- More symbols do not matter after an end by a message. -/
theorem Drains.append_of_failed (h : F.Drains log b r) (hr : r.failed = true) (e : List α) :
    F.Drains log (b ++ e) { r with buffer := r.buffer ++ e } := by
  induction h with
  | wait _ => cases hr
  | take hscan _ ih =>
    refine .take (F.take_append e hscan) ?_
    rw [List.drop_append_of_le_length (F.le_of_take hscan)]
    exact ih hr
  | fail hscan => exact .fail (F.fail_append e hscan)

/-- The reader goes on where it has stopped for want of symbols. -/
theorem Drains.append_iff (h : F.Drains log b r) (hr : r.failed = false) :
    F.Drains log (b ++ e) r' ↔ F.Drains r.log (r.buffer ++ e) r' := by
  induction h with
  | wait _ => rfl
  | fail _ => cases hr
  | take hscan _ ih =>
    rw [← ih hr, ← List.drop_append_of_le_length (F.le_of_take hscan)]
    constructor
    · intro h'
      cases h' with
      | wait hscan' =>
        rw [F.take_append e hscan] at hscan'
        cases hscan'
      | fail hscan' =>
        rw [F.take_append e hscan] at hscan'
        cases hscan'
      | take hscan' h' =>
        rw [F.take_append e hscan, Scan.take.injEq] at hscan'
        obtain ⟨rfl, rfl⟩ := hscan'
        exact h'
    · exact .take (F.take_append e hscan)

/-- A reader that comes to an end comes to one when less has arrived. -/
theorem Drains.of_append (h : F.Drains log (b ++ e) r) : ∃ r', F.Drains log b r' := by
  generalize hbe : b ++ e = be at h
  induction h generalizing b with
  | wait hscan =>
    cases hb : F.scan b with
    | wait => exact ⟨_, .wait hb⟩
    | fail m => exact ⟨_, .fail hb⟩
    | take n m =>
      rw [← hbe, F.take_append e hb] at hscan
      cases hscan
  | fail hscan =>
    cases hb : F.scan b with
    | wait => exact ⟨_, .wait hb⟩
    | fail m => exact ⟨_, .fail hb⟩
    | take n m =>
      rw [← hbe, F.take_append e hb] at hscan
      cases hscan
  | take hscan _ ih =>
    cases hb : F.scan b with
    | wait => exact ⟨_, .wait hb⟩
    | fail m => exact ⟨_, .fail hb⟩
    | take n m =>
      rw [← hbe, F.take_append e hb, Scan.take.injEq] at hscan
      obtain ⟨rfl, rfl⟩ := hscan
      obtain ⟨r', hr'⟩ := ih (by rw [← hbe, List.drop_append_of_le_length (F.le_of_take hb)])
      exact ⟨r', .take hb hr'⟩

/-! ## Hanging -/

variable (F) in
/-- Some messages have been taken off a buffer. -/
inductive Taken : List α → List α → Prop
  | refl (l : List α) : Taken l l
  | take {b n m rest} (h : F.scan b = .take n m) (h' : Taken (b.drop n) rest) : Taken b rest

theorem Drains.scan_ne (h : F.Drains log b r) (m : μ) : F.scan b ≠ .take 0 m := by
  induction h with
  | wait hscan => simp [hscan]
  | fail hscan => simp [hscan]
  | take hscan _ ih =>
    intro hzero
    rw [hscan, Scan.take.injEq] at hzero
    obtain ⟨rfl, rfl⟩ := hzero
    exact ih hscan

theorem Taken.drains {rest : List α} (h : F.Taken b rest) (hb : F.Drains log b r) :
    ∃ log', F.Drains log' rest r := by
  induction h generalizing log with
  | refl b => exact ⟨log, hb⟩
  | take hscan _ ih =>
    cases hb with
    | wait hscan' =>
      rw [hscan] at hscan'
      cases hscan'
    | fail hscan' =>
      rw [hscan] at hscan'
      cases hscan'
    | take hscan' hb =>
      rw [hscan, Scan.take.injEq] at hscan'
      obtain ⟨rfl, rfl⟩ := hscan'
      exact ih hb

/-- Every other message makes the buffer shorter. -/
theorem not_drains_iff :
    (¬ ∃ r, F.Drains log b r) ↔ ∃ rest m, F.Taken b rest ∧ F.scan rest = .take 0 m := by
  constructor
  · intro h
    induction hlen : b.length using Nat.strong_induction_on generalizing log b with
    | _ k ih =>
      subst hlen
      cases hb : F.scan b with
      | wait => exact absurd ⟨_, .wait hb⟩ h
      | fail m => exact absurd ⟨_, .fail hb⟩ h
      | take n m =>
        rcases Nat.eq_zero_or_pos n with rfl | hn
        · exact ⟨b, m, .refl b, hb⟩
        · have hlt : (b.drop n).length < b.length := by
            have hle := F.le_of_take hb
            rw [List.length_drop]
            omega
          have hnext : ¬ ∃ r, F.Drains (log ++ [m]) (b.drop n) r := by
            rintro ⟨r, hr⟩
            exact h ⟨r, .take hb hr⟩
          obtain ⟨rest, m', htaken, hrest⟩ := ih _ hlt hnext rfl
          exact ⟨rest, m', .take hb htaken, hrest⟩
  · rintro ⟨rest, m, htaken, hrest⟩ ⟨r, hr⟩
    obtain ⟨log', hlog'⟩ := htaken.drains hr
    exact hlog'.scan_ne m hrest

/-! ## A stream in chunks -/

variable (F) in
/-- The reader comes to an end with the chunks. -/
def Receives : Reader α μ → List (List α) → Reader α μ → Prop
  | r, [], r' => r' = r
  | r, data :: chunks, r' => ∃ r₁, F.Drains r.log (r.buffer ++ data) r₁ ∧
      if r₁.failed then r' = r₁ else Receives r₁ chunks r'

theorem receives_of_receive {fuel : ℕ} {chunks : List (List α)}
    (h : F.receive fuel r chunks = some r') : F.Receives r chunks r' := by
  induction chunks generalizing r with
  | nil => exact (Option.some.inj h).symm
  | cons data chunks ih =>
    obtain ⟨r₁, hr₁, h⟩ := Option.bind_eq_some_iff.mp h
    refine ⟨r₁, drains_of_drain hr₁, ?_⟩
    split_ifs at h ⊢
    · exact (Option.some.inj h).symm
    · exact ih h

theorem Receives.receive {chunks : List (List α)} (h : F.Receives r chunks r') :
    ∃ fuel, ∀ k, F.receive (fuel + k) r chunks = some r' := by
  induction chunks generalizing r with
  | nil =>
    obtain rfl : r' = r := h
    exact ⟨0, fun _ => rfl⟩
  | cons data chunks ih =>
    obtain ⟨r₁, hr₁, h⟩ := h
    obtain ⟨fuel, hfuel⟩ := hr₁.drain
    split_ifs at h with hfailed
    · refine ⟨fuel, fun k => ?_⟩
      rw [Framing.receive, hfuel, Option.bind_some, if_pos hfailed, h]
    · obtain ⟨fuel', hfuel'⟩ := ih h
      refine ⟨fuel + fuel', fun k => ?_⟩
      have hrest := hfuel' (fuel + k)
      rw [Framing.receive, Nat.add_assoc, hfuel, Option.bind_some, if_neg hfailed, ← hrest]
      congr 1
      omega

/-- What the reader comes to with the chunks it comes to with all of them at once. -/
theorem Receives.drains {chunks : List (List α)} (hr : F.scan r.buffer = .wait)
    (hfailed : r.failed = false) (h : F.Receives r chunks r') :
    ∃ r'', F.Drains r.log (r.buffer ++ chunks.flatten) r'' ∧ r'.Same r'' := by
  induction chunks generalizing r with
  | nil =>
    obtain rfl : r' = r := h
    rw [List.flatten_nil, List.append_nil]
    exact ⟨_, .wait hr, rfl, hfailed, fun _ => rfl⟩
  | cons data chunks ih =>
    obtain ⟨r₁, hr₁, h⟩ := h
    rw [List.flatten_cons, ← List.append_assoc]
    split_ifs at h with hend
    · subst h
      refine ⟨_, hr₁.append_of_failed hend chunks.flatten, rfl, rfl, ?_⟩
      intro hnot
      rw [hend] at hnot
      cases hnot
    · have hend : r₁.failed = false := by simpa using hend
      obtain ⟨r'', hr'', hsame⟩ := ih (hr₁.scan hend) hend h
      exact ⟨r'', (hr₁.append_iff hend).mpr hr'', hsame⟩

/-- And conversely. -/
theorem Drains.receives {chunks : List (List α)} {r'' : Reader α μ} (hr : F.scan r.buffer = .wait)
    (hfailed : r.failed = false) (h : F.Drains r.log (r.buffer ++ chunks.flatten) r'') :
    ∃ r', F.Receives r chunks r' ∧ r'.Same r'' := by
  have hexists : ∃ r', F.Receives r chunks r' := by
    clear hr hfailed
    induction chunks generalizing r with
    | nil => exact ⟨r, rfl⟩
    | cons data chunks ih =>
      rw [List.flatten_cons, ← List.append_assoc] at h
      obtain ⟨r₁, hr₁⟩ := h.of_append
      by_cases hend : r₁.failed
      · refine ⟨r₁, r₁, hr₁, ?_⟩
        rw [if_pos hend]
      · have hnot : r₁.failed = false := by simpa using hend
        obtain ⟨r', hr'⟩ := ih ((hr₁.append_iff hnot).mp h)
        refine ⟨r', r₁, hr₁, ?_⟩
        rwa [if_neg hend]
  obtain ⟨r', hr'⟩ := hexists
  obtain ⟨r₂, hr₂, hsame⟩ := hr'.drains hr hfailed
  rw [hr₂.unique h] at hsame
  exact ⟨r', hr', hsame⟩

end Framing

end TradingGateway.Common
