import Mathlib.Data.List.Basic
import RigWarden.Event.Channel

/-!
# Events on their way through a channel

What is in the queue, what the sink has pulled out and what it is about to put back make one list,
which the steps of the sink only shorten. The stream takes the first event of the queue; others come
before it in that list only while the sink holds them.
-/

namespace RigWarden

namespace Event

@[simp] theorem readings_cons_metrics (r : Reading) (es : List Event) :
    readings (metrics r :: es) = r :: readings es := rfl

@[simp] theorem readings_cons_control (k : Control) (es : List Event) :
    readings (control k :: es) = readings es := rfl

@[simp] theorem controls_cons_metrics (r : Reading) (es : List Event) :
    controls (metrics r :: es) = controls es := rfl

@[simp] theorem controls_cons_control (k : Control) (es : List Event) :
    controls (control k :: es) = k :: controls es := rfl

theorem readings_eq_nil_iff {es : List Event} :
    readings es = [] ↔ ∀ e ∈ es, e.isMetrics = false := by
  rw [readings, List.filterMap_eq_nil_iff]
  refine forall₂_congr fun e _ => ?_
  cases e <;> simp [reading?]

theorem readings_eq_nil_iff_any {es : List Event} :
    readings es = [] ↔ es.any isMetrics = false := by
  rw [readings_eq_nil_iff, List.any_eq_false]
  simp

/-- The oldest reading, where there is one. -/
theorem exists_oldest {es : List Event} (h : es.any isMetrics = true) :
    ∃ older r newer, es = older ++ metrics r :: newer ∧ readings older = [] := by
  induction es with
  | nil => simp at h
  | cons e es ih =>
    cases e with
    | metrics r => exact ⟨[], r, es, rfl, rfl⟩
    | control k =>
      obtain ⟨older, r, newer, rfl, ho⟩ := ih (by simpa using h)
      exact ⟨.control k :: older, r, newer, rfl, ho⟩

end Event

namespace Channel

theorem dropOldest_append_sublist (es fs : List Event) :
    (dropOldest (es ++ fs)).Sublist (dropOldest es ++ fs) := by
  unfold dropOldest
  by_cases h : ∃ e ∈ es, e.isMetrics = true
  · obtain ⟨e, he, hm⟩ := h
    rw [List.eraseP_append_left hm fs he]
  · have hn : ∀ e ∈ es, ¬ e.isMetrics = true := fun e he hm => h ⟨e, he, hm⟩
    rw [List.eraseP_append_right fs hn, List.eraseP_of_forall_not hn]
    exact List.eraseP_sublist.append_left es

theorem dropOldest_of_any_eq_false {es : List Event} (h : es.any Event.isMetrics = false) :
    dropOldest es = es :=
  List.eraseP_of_forall_not fun e he => by simpa using List.any_eq_false.1 h e he

theorem dropOldest_of_oldest {older : List Event} (h : Event.readings older = []) (r : Reading)
    (newer : List Event) : dropOldest (older ++ .metrics r :: newer) = older ++ newer := by
  have hnone : ∀ e ∈ older, ¬ e.isMetrics = true := by simpa using Event.readings_eq_nil_iff.1 h
  rw [dropOldest, List.eraseP_append_right _ hnone, List.eraseP_cons_of_pos rfl]

theorem makeRoom_of_oldest {older : List Event} (h : Event.readings older = []) (r : Reading)
    (newer : List Event) (e : Event) :
    makeRoom (older ++ .metrics r :: newer) e = (older ++ newer ++ [e], 1) := by
  rw [makeRoom, dropOldest_of_oldest h]
  simp

theorem makeRoom_of_controls {pulled : List Event} (h : Event.readings pulled = []) (e : Event) :
    makeRoom pulled e = if e.isMetrics then (pulled, 1) else (pulled ++ [e], 0) := by
  simp [makeRoom, Event.readings_eq_nil_iff_any.1 h]

theorem makeRoom_sublist (pulled : List Event) (e : Event) :
    (makeRoom pulled e).1.Sublist (dropOldest pulled ++ [e]) := by
  unfold makeRoom
  cases h : pulled.any Event.isMetrics with
  | true => exact List.Sublist.refl _
  | false =>
    rw [dropOldest_of_any_eq_false h]
    cases e.isMetrics with
    | true => exact List.sublist_append_left pulled [e]
    | false => exact List.Sublist.refl _

/-- What may still come out, in the order in which it will. -/
def inFlight (c : Channel) : List Event :=
  match c.sending with
  | .idle => c.queue
  | .offering e => c.queue ++ [e]
  | .pulling e pulled => dropOldest pulled ++ c.queue ++ [e]
  | .refilling rest => c.queue ++ rest
  | .waiting e rest => c.queue ++ e :: rest

/-- What the sink has pulled out of the queue. -/
def held (c : Channel) : List Event :=
  match c.sending with
  | .pulling _ pulled => pulled
  | _ => []

/-- The sink is going to put back some events of a kind that it has pulled out. -/
def HoldsBack (kind : Event → Bool) (c : Channel) : Prop :=
  ∃ x ∈ dropOldest c.held, kind x = true

/-- The queue and what is held make no more than a number that bounds the capacity. -/
structure Fits (c : Channel) (n : Nat) : Prop where
  capacity_le : c.capacity ≤ n
  length_le : c.held.length + c.queue.length ≤ n

theorem inFlight_offer {c : Channel} (h : c.sending = .idle) (e : Event) :
    (c.offer e).inFlight = c.inFlight ++ [e] := by
  simp [inFlight, offer, h]

theorem inFlight_step (c : Channel) : c.step.inFlight.Sublist c.inFlight := by
  cases hs : c.sending with
  | idle => simp [step, hs]
  | offering e =>
    simp only [step, hs]
    split
    · simp [inFlight, hs]
    · split <;> simp [inFlight, hs, push, dropOldest]
  | pulling e pulled =>
    cases hq : c.queue with
    | nil => simpa [step, inFlight, hs, hq] using makeRoom_sublist pulled e
    | cons first queue =>
      simp only [step, inFlight, hs, hq]
      have h := (dropOldest_append_sublist pulled [first]).append_right (queue ++ [e])
      simpa using h
  | refilling rest =>
    cases rest with
    | nil => simp [step, inFlight, hs]
    | cons e rest =>
      simp only [step, hs]
      split <;> simp [inFlight, hs, push]
  | waiting e rest =>
    simp only [step, hs]
    split <;> simp [inFlight, hs, push]

theorem inFlight_expire (c : Channel) : c.expire.inFlight.Sublist c.inFlight := by
  cases hs : c.sending <;> simp [expire, inFlight, hs]

theorem inFlight_closeSink {c : Channel} (h : c.sending = .idle) :
    c.closeSink.inFlight = c.inFlight := by
  simp [inFlight, closeSink, h]

/-- What is received comes before all others of its kind, unless the sink holds some back. -/
theorem filter_inFlight_of_queue {kind : Event → Bool} {c : Channel} {e : Event}
    {queue : List Event} (hq : c.queue = e :: queue) (h : kind e = true → ¬ c.HoldsBack kind) :
    c.inFlight.filter kind = (e :: { c with queue := queue }.inFlight).filter kind := by
  cases hs : c.sending with
  | pulling x pulled =>
    cases hk : kind e with
    | false => simp [inFlight, hs, hq, hk]
    | true =>
      have hp : (dropOldest pulled).filter kind = [] := by
        simpa [HoldsBack, held, hs] using h hk
      simp [inFlight, hs, hq, hk, hp]
  | idle | offering | refilling | waiting => simp [inFlight, hs, hq]

theorem inFlight_perm_of_queue {c : Channel} {e : Event} {queue : List Event}
    (hq : c.queue = e :: queue) : c.inFlight.Perm (e :: { c with queue := queue }.inFlight) := by
  cases hs : c.sending with
  | pulling x pulled => simp [inFlight, hs, hq]
  | idle | offering | refilling | waiting => simp [inFlight, hs, hq]

theorem capacity_step (c : Channel) : c.step.capacity = c.capacity := by
  cases hs : c.sending with
  | idle => simp [step, hs]
  | offering e =>
    simp only [step, hs]
    split
    · rfl
    · split <;> rfl
  | pulling e pulled =>
    simp only [step, hs]
    split <;> rfl
  | refilling rest =>
    cases rest with
    | nil => simp [step, hs]
    | cons e rest =>
      simp only [step, hs]
      split <;> rfl
  | waiting e rest =>
    simp only [step, hs]
    split <;> rfl

theorem length_push_le {c : Channel} (h : c.hasRoom = true) (e : Event) :
    (c.push e).queue.length ≤ c.capacity := by
  rw [push, List.length_append]
  exact of_decide_eq_true h

theorem Fits.step {c : Channel} {n : Nat} (h : c.Fits n) : c.step.Fits n := by
  obtain ⟨hc, h⟩ := h
  have hpush {e : Event} (hr : c.hasRoom = true) : (c.push e).queue.length ≤ n :=
    Nat.le_trans (length_push_le hr e) hc
  refine ⟨c.capacity_step.symm ▸ hc, ?_⟩
  cases hs : c.sending with
  | idle => simpa [Channel.step, held, hs] using h
  | offering e =>
    simp only [held, hs] at h
    simp only [Channel.step, hs]
    split
    · simpa [held] using h
    · split
      next hr => simpa [held] using hpush hr
      next => simpa [held] using h
  | pulling e pulled =>
    simp only [held, hs] at h
    cases hq : c.queue with
    | nil => simp [Channel.step, held, hs, hq]
    | cons first queue =>
      simp only [hq, List.length_cons] at h
      simp only [Channel.step, held, hs, hq, List.length_append, List.length_singleton]
      omega
  | refilling rest =>
    simp only [held, hs] at h
    cases rest with
    | nil => simpa [Channel.step, held, hs] using h
    | cons e rest =>
      simp only [Channel.step, hs]
      split
      next hr => simpa [held] using hpush hr
      next => simpa [held] using h
  | waiting e rest =>
    simp only [held, hs] at h
    simp only [Channel.step, hs]
    split
    next hr => simpa [held] using hpush hr
    next => simpa [held, hs] using h

theorem Fits.expire {c : Channel} {n : Nat} (h : c.Fits n) : c.expire.Fits n := by
  cases hs : c.sending with
  | waiting e rest =>
    have hl := h.length_le
    simp only [held, hs] at hl
    simp only [Channel.expire, hs]
    exact ⟨h.capacity_le, hl⟩
  | idle | offering | pulling | refilling => simpa [Channel.expire, hs] using h

theorem Fits.idle {c : Channel} {n : Nat} (h : c.Fits n) : c.queue.length ≤ n :=
  Nat.le_trans (Nat.le_add_left _ _) h.length_le

theorem Fits.tail {c : Channel} {n : Nat} (h : c.Fits n) {e : Event} {queue : List Event}
    (hq : c.queue = e :: queue) : Fits { c with queue := queue } n := by
  have hl := h.length_le
  rw [hq, List.length_cons] at hl
  exact ⟨h.capacity_le, Nat.le_of_succ_le hl⟩

theorem Fits.length_held_lt {c : Channel} {n : Nat} (h : c.Fits n) (hq : c.queue ≠ []) :
    c.held.length < n := by
  have hpos := List.length_pos_iff.2 hq
  have hle := h.length_le
  omega

/-- With room for one event nothing is held while another is in the queue. -/
theorem Fits.not_holdsBack {c : Channel} (h : c.Fits 1) (hq : c.queue ≠ [])
    (kind : Event → Bool) : ¬ c.HoldsBack kind := by
  have hheld : c.held = [] := List.length_eq_zero_iff.1 (Nat.lt_one_iff.1 (h.length_held_lt hq))
  simp [HoldsBack, hheld, dropOldest]

/-- With room for two events a reading held while another is in the queue is given up. -/
theorem Fits.not_holdsBack_reading {c : Channel} (h : c.Fits 2) (hq : c.queue ≠ []) :
    ¬ c.HoldsBack Event.isMetrics := by
  have hlen := h.length_held_lt hq
  rintro ⟨x, hx, hm⟩
  unfold dropOldest at hx
  rcases hheld : c.held with _ | ⟨first, _ | ⟨second, more⟩⟩
  · simp [hheld] at hx
  · rw [hheld, List.eraseP_cons] at hx
    cases hf : first.isMetrics with
    | true => simp [hf] at hx
    | false =>
      simp only [hf, cond_false, List.eraseP_nil, List.mem_singleton] at hx
      rw [hx, hf] at hm
      cases hm
  · simp only [hheld, List.length_cons] at hlen
    omega

end Channel

end RigWarden
