import RigWarden.Proofs.Event.Controls
import RigWarden.Proofs.Session.Passage

/-!
# Sends without a stream

The sink keeps a receiving end of its own, so a send never finds out that the stream is gone. It
goes on as for a stream that takes nothing: the queue fills up, and from there on each send gives up
a reading or waits until its time is over.
-/

namespace RigWarden
namespace Channel

variable {c : Channel} {e : Event}

/-- In the course of a send the sink comes to wait for room. -/
def Waits (c : Channel) (e : Event) : Prop :=
  ∃ n x rest, ((c.offer e).steps n).sending = .waiting x rest

/-- A send that counts no event as dropped and comes back without a wait. -/
def Quiet (c : Channel) (e : Event) : Prop := (c.send e).dropped = c.dropped ∧ ¬ c.Waits e

def QuietAll (c : Channel) : List Event → Prop
  | [] => True
  | e :: es => c.Quiet e ∧ (c.send e).QuietAll es

theorem steps_add (m n : Nat) (c : Channel) : c.steps (m + n) = (c.steps m).steps n := by
  induction m generalizing c with
  | zero => rw [Nat.zero_add, steps_zero]
  | succ m ih => rw [Nat.succ_add, steps_succ, steps_succ, ih]

/-- Nobody takes an event while the sink works, so it waits only while there is no room. -/
def WaitsForRoom (c : Channel) : Prop :=
  ∀ x rest, c.sending = .waiting x rest → c.hasRoom = false

theorem WaitsForRoom.step (h : c.WaitsForRoom) : c.step.WaitsForRoom := by
  intro x rest hs
  cases hc : c.sending with
  | idle => simp [Channel.step, hc] at hs
  | offering e =>
    simp only [Channel.step, hc] at hs
    split at hs
    · cases hs
    · split at hs <;> cases hs
  | pulling e pulled => cases hq : c.queue <;> simp [Channel.step, hc, hq] at hs
  | refilling es =>
    cases es with
    | nil => simp [Channel.step, hc] at hs
    | cons e es =>
      cases hroom : c.hasRoom with
      | true => simp [Channel.step, hc, hroom] at hs
      | false =>
        have hstep : c.step = { c with sending := .waiting e es } := by
          simp [Channel.step, hc, hroom]
        rw [hstep]
        exact hroom
  | waiting e es =>
    have hroom := h e es hc
    have hstep : c.step = c := by simp [Channel.step, hc, hroom]
    rw [hstep, hroom]

theorem WaitsForRoom.steps (h : c.WaitsForRoom) (n : Nat) : (c.steps n).WaitsForRoom := by
  induction n generalizing c with
  | zero => exact h
  | succ n ih => exact ih h.step

theorem steps_of_waiting (h : c.WaitsForRoom) {x : Event} {rest : List Event}
    (hs : c.sending = .waiting x rest) (n : Nat) : c.steps n = c :=
  steps_of_step_eq (by simp [Channel.step, hs, h x rest hs]) n

theorem not_waits_of_settle (h : (c.offer e).settle.sending = .idle) : ¬ c.Waits e := by
  rintro ⟨n, x, rest, hn⟩
  have hoffer : (c.offer e).WaitsForRoom := nofun
  rcases Nat.le_total n (2 * (c.offer e).queue.length + 6) with hle | hle
  · obtain ⟨k, hk⟩ := Nat.exists_eq_add_of_le hle
    rw [settle, hk, steps_add, steps_of_waiting (hoffer.steps n) hn, hn] at h
    cases h
  · obtain ⟨k, rfl⟩ := Nat.exists_eq_add_of_le hle
    rw [steps_add, ← settle, steps_idle k h, h] at hn
    cases hn

theorem Still.length_queue_of_full (h : c.Still) (hr : c.hasRoom = false) :
    c.queue.length = c.capacity :=
  Nat.le_antisymm h.length_le (Nat.le_of_not_lt (of_decide_eq_false hr))

/-- A send that counts an event as dropped, or waits and loses its own. -/
def DropsOrWaits (c : Channel) (e : Event) : Prop :=
  (c.send e).dropped = c.dropped + 1 ∧ ¬ c.Waits e ∨ c.send e = c ∧ c.Waits e

theorem Still.dropsOrWaits (h : c.Still) (hr : c.hasRoom = false) (e : Event) :
    c.DropsOrWaits e := by
  rcases h.settle_cases e with ⟨hroom, -⟩ | ⟨-, _, r, _, -, hs⟩ | ⟨-, hs⟩ | ⟨-, hs⟩
  · rw [hr] at hroom
    cases hroom
  · refine .inl ⟨?_, not_waits_of_settle (by rw [hs]; exact h.sending)⟩
    rw [send_of_settled hs h.sending]
  · refine .inl ⟨?_, not_waits_of_settle (by rw [hs]; exact h.sending)⟩
    rw [send_of_settled hs h.sending]
  · exact .inr ⟨h.send_of_waiting hs, _, e, [], congrArg Channel.sending hs⟩

theorem DropsOrWaits.not_quiet (h : c.DropsOrWaits e) : ¬ c.Quiet e := by
  rintro ⟨hdropped, hwaits⟩
  rcases h with ⟨hmore, -⟩ | ⟨-, hw⟩
  · omega
  · exact hwaits hw

theorem Still.send_of_hasRoom (h : c.Still) (hr : c.hasRoom = true) (e : Event) :
    c.send e = { c with queue := c.queue ++ [e] } ∧ c.Quiet e := by
  rcases h.settle_cases e with ⟨-, hs⟩ | ⟨hfull, -⟩ | ⟨hfull, -⟩ | ⟨hfull, -⟩
  · have hsend := send_of_settled hs h.sending
    exact ⟨hsend, by rw [hsend], not_waits_of_settle (by rw [hs]; exact h.sending)⟩
  all_goals
    rw [hr] at hfull
    cases hfull

theorem Still.capacity_send (h : c.Still) (e : Event) : (c.send e).capacity = c.capacity := by
  rcases h.settle_cases e with ⟨-, hs⟩ | ⟨-, _, _, _, -, hs⟩ | ⟨-, hs⟩ | ⟨-, hs⟩
  · rw [send_of_settled hs h.sending]
  · rw [send_of_settled hs h.sending]
  · rw [send_of_settled hs h.sending]
  · rw [h.send_of_waiting hs]

theorem Still.length_send (h : c.Still) (e : Event) :
    (c.send e).queue.length = min (c.queue.length + 1) c.capacity := by
  cases hr : c.hasRoom with
  | true =>
    have hlt : c.queue.length < c.capacity := of_decide_eq_true hr
    rw [(h.send_of_hasRoom hr e).1, List.length_append, List.length_singleton, Nat.min_eq_left hlt]
  | false =>
    have hfull := h.length_queue_of_full hr
    rw [Nat.min_eq_right (by omega), ← hfull]
    rcases h.settle_cases e with ⟨hroom, -⟩ | ⟨-, older, r, newer, hq, hs⟩ | ⟨-, hs⟩ | ⟨-, hs⟩
    · rw [hr] at hroom
      cases hroom
    · rw [send_of_settled hs h.sending, hq]
      simp
    · rw [send_of_settled hs h.sending]
    · rw [h.send_of_waiting hs]

theorem Still.capacity_sendAll (h : c.Still) (es : List Event) :
    (c.sendAll es).capacity = c.capacity := by
  induction es generalizing c with
  | nil => rfl
  | cons e es ih => exact (ih (h.send e).1).trans (h.capacity_send e)

theorem Still.length_sendAll (h : c.Still) (es : List Event) :
    (c.sendAll es).queue.length = min (c.queue.length + es.length) c.capacity := by
  induction es generalizing c with
  | nil => exact (Nat.min_eq_left h.length_le).symm
  | cons e es ih =>
    have hnext : ((c.send e).sendAll es).queue.length = _ := ih (h.send e).1
    rw [h.length_send, h.capacity_send] at hnext
    rw [List.length_cons]
    change ((c.send e).sendAll es).queue.length = _
    omega

theorem Still.quietAll_iff (h : c.Still) (es : List Event) :
    c.QuietAll es ↔ c.queue.length + es.length ≤ c.capacity := by
  induction es generalizing c with
  | nil => exact iff_of_true trivial h.length_le
  | cons e es ih =>
    rw [QuietAll, ih (h.send e).1, h.length_send, h.capacity_send, List.length_cons]
    cases hr : c.hasRoom with
    | true =>
      have hlt : c.queue.length < c.capacity := of_decide_eq_true hr
      rw [and_iff_right (h.send_of_hasRoom hr e).2]
      omega
    | false =>
      have hfull := h.length_queue_of_full hr
      exact iff_of_false (fun hq => (h.dropsOrWaits hr e).not_quiet hq.1) (by omega)

/-! A send does not look at the stream. -/

def withStream (c : Channel) (streamOpen : Bool) : Channel := { c with streamOpen := streamOpen }

theorem step_withStream (h : c.sinkOpen = true) (streamOpen : Bool) :
    (c.withStream streamOpen).step = c.step.withStream streamOpen ∧ c.step.sinkOpen = true := by
  have hends : c.receivingEnds ≠ 0 := by simp [receivingEnds, h]
  have hends' : (c.withStream streamOpen).receivingEnds ≠ 0 := by
    simp [receivingEnds, withStream, h]
  have hroom : (c.withStream streamOpen).hasRoom = c.hasRoom := rfl
  have hsending : (c.withStream streamOpen).sending = c.sending := rfl
  cases hs : c.sending with
  | idle => simp [step, hsending, hs, h]
  | offering e =>
    simp only [step, hsending, hs, hends, hends', if_false, hroom]
    split <;> exact ⟨rfl, h⟩
  | pulling e pulled =>
    have hqueue : (c.withStream streamOpen).queue = c.queue := rfl
    cases hq : c.queue <;> (simp only [step, hsending, hs, hqueue, hq]; exact ⟨rfl, h⟩)
  | refilling es =>
    cases es with
    | nil =>
      simp only [step, hsending, hs]
      exact ⟨rfl, h⟩
    | cons e es =>
      simp only [step, hsending, hs, hroom]
      split <;> exact ⟨rfl, h⟩
  | waiting e es =>
    simp only [step, hsending, hs, hroom]
    split <;> exact ⟨rfl, h⟩

theorem steps_withStream (h : c.sinkOpen = true) (streamOpen : Bool) (n : Nat) :
    (c.withStream streamOpen).steps n = (c.steps n).withStream streamOpen ∧
      (c.steps n).sinkOpen = true := by
  induction n generalizing c with
  | zero => exact ⟨rfl, h⟩
  | succ n ih =>
    obtain ⟨hstep, hopen⟩ := step_withStream h streamOpen
    rw [steps_succ, steps_succ, hstep]
    exact ih hopen

theorem expire_withStream (c : Channel) (streamOpen : Bool) :
    (c.withStream streamOpen).expire = c.expire.withStream streamOpen := by
  cases hs : c.sending <;> simp only [expire, withStream, hs]

theorem sinkOpen_expire (c : Channel) : c.expire.sinkOpen = c.sinkOpen := by
  cases hs : c.sending <;> simp only [expire, hs]

theorem send_withStream (h : c.sinkOpen = true) (streamOpen : Bool) (e : Event) :
    (c.withStream streamOpen).send e = (c.send e).withStream streamOpen ∧
      (c.send e).sinkOpen = true := by
  obtain ⟨hfirst, hopen⟩ :=
    steps_withStream (c := c.offer e) h streamOpen (2 * c.queue.length + 6)
  have hsettle : ((c.withStream streamOpen).offer e).settle =
      (c.offer e).settle.withStream streamOpen := hfirst
  have hexpired : (c.offer e).settle.expire.sinkOpen = true :=
    (sinkOpen_expire _).trans hopen
  rw [send, send, hsettle, expire_withStream]
  exact steps_withStream hexpired streamOpen _

theorem sendAll_withStream (h : c.sinkOpen = true) (streamOpen : Bool) (es : List Event) :
    (c.withStream streamOpen).sendAll es = (c.sendAll es).withStream streamOpen := by
  induction es generalizing c with
  | nil => rfl
  | cons e es ih =>
    obtain ⟨hsend, hopen⟩ := send_withStream h streamOpen e
    have hnext := ih hopen
    rw [← hsend] at hnext
    exact hnext

end Channel

namespace Delivery

/-- The channel when the stream was dropped somewhere in the run. -/
def abandoned (capacity : Nat) (before after : List Step) : Channel :=
  ((start capacity).run (before ++ .closeStream :: after)).channel

theorem still_abandoned {capacity : Nat} {before after : List Step}
    (hidle : (abandoned capacity before after).sending = .idle)
    (hopen : (abandoned capacity before after).sinkOpen = true) :
    (abandoned capacity before after).Still := by
  refine ⟨hopen, ?_, hidle⟩
  have hlength := length_queue_le capacity (before ++ .closeStream :: after)
  rw [← capacity_run capacity (before ++ .closeStream :: after)] at hlength
  exact hlength

/-- Events sent after the stream was dropped are sent without a drop and without a wait exactly if
there is room for all of them in the queue. They fill it up, and once it is full every send drops an
event or waits until its time is over. To none of them it makes a difference that the stream was
dropped. -/
theorem quietAll_abandoned_iff {capacity : Nat} {before after : List Step}
    (hidle : (abandoned capacity before after).sending = .idle)
    (hopen : (abandoned capacity before after).sinkOpen = true) (es : List Event) :
    ((abandoned capacity before after).QuietAll es ↔
      (abandoned capacity before after).queue.length + es.length ≤ max capacity 1) ∧
    ((abandoned capacity before after).sendAll es).queue.length =
      min ((abandoned capacity before after).queue.length + es.length) (max capacity 1) ∧
    (∀ e, ((abandoned capacity before after).sendAll es).queue.length = max capacity 1 →
      ((abandoned capacity before after).sendAll es).DropsOrWaits e) ∧
    ((abandoned capacity before after).withStream true).sendAll es =
      ((abandoned capacity before after).sendAll es).withStream true := by
  have hstill := still_abandoned hidle hopen
  have hcapacity : (abandoned capacity before after).capacity = max capacity 1 :=
    capacity_run capacity _
  refine ⟨?_, ?_, fun e hfull => ?_, Channel.sendAll_withStream hopen true es⟩
  · rw [hstill.quietAll_iff, hcapacity]
  · rw [hstill.length_sendAll, hcapacity]
  · have hfull' : ((abandoned capacity before after).sendAll es).hasRoom = false := by
      rw [Channel.hasRoom, hstill.capacity_sendAll, hcapacity, hfull]
      exact decide_eq_false (Nat.lt_irrefl _)
    exact (hstill.sendAll es).1.dropsOrWaits hfull' e

theorem quietAll_abandoned_iff_oneLeft :
    (abandoned 2 (fill [.control (.restarted 1)]) []).sending = .idle ∧
      (abandoned 2 (fill [.control (.restarted 1)]) []).sinkOpen = true ∧
      (abandoned 2 (fill [.control (.restarted 1)]) []).QuietAll [.control .stopped] ∧
      ((abandoned 2 (fill [.control (.restarted 1)]) []).sendAll [.control .stopped]).DropsOrWaits
        (.control .stopped) := by
  have hidle : (abandoned 2 (fill [.control (.restarted 1)]) []).sending = .idle := rfl
  have hopen : (abandoned 2 (fill [.control (.restarted 1)]) []).sinkOpen = true := rfl
  obtain ⟨hquiet, -, hfull, -⟩ := quietAll_abandoned_iff hidle hopen [.control .stopped]
  exact ⟨hidle, hopen, hquiet.2 (by decide), hfull _ rfl⟩

theorem not_always_quiet : ¬ ∀ (capacity : Nat) (before after : List Step) (es : List Event),
    (abandoned capacity before after).sending = .idle →
      (abandoned capacity before after).sinkOpen = true →
        (abandoned capacity before after).QuietAll es := by
  intro h
  have hquiet := h 1 [] [] [.control .stopped, .control .stopped] rfl rfl
  rw [(still_abandoned rfl rfl).quietAll_iff] at hquiet
  exact absurd hquiet (by decide)

end Delivery
end RigWarden
