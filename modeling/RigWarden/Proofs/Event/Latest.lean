import RigWarden.Proofs.Event.Sends

/-!
# The latest reading

The totals of a session are those of its latest reading. The sink gives up the oldest reading that
it has in its hand, which is the latest where there is no other: when a control event takes the
place of the only reading, and when a reading comes upon nothing but control events. In all other
runs the latest reading is received or still to be received.
-/

namespace RigWarden
namespace Channel

/-- All that is in the queue or in the sink's hand. -/
def contents (c : Channel) : List Event :=
  match c.sending with
  | .idle => c.queue
  | .offering e => c.queue ++ [e]
  | .pulling e pulled => pulled ++ c.queue ++ [e]
  | .refilling rest => c.queue ++ rest
  | .waiting e rest => c.queue ++ e :: rest

/-- The reading that the next step of the sink gives up. -/
def givenUp (c : Channel) : List Reading :=
  match c.sending, c.queue with
  | .pulling e pulled, [] => (Event.readings (pulled ++ [e])).take 1
  | _, _ => []

/-- The sink has one reading in its hand, and its next step gives that up. -/
def GivesUpOnly (c : Channel) (r : Reading) : Prop :=
  ∃ e pulled, c.sending = .pulling e pulled ∧ c.queue = [] ∧ Event.readings (pulled ++ [e]) = [r]

theorem GivesUpOnly.givenUp {c : Channel} {r : Reading} (h : c.GivesUpOnly r) :
    c.givenUp = [r] := by
  obtain ⟨e, pulled, hs, hq, hr⟩ := h
  simp only [Channel.givenUp, hs, hq, hr]
  rfl

theorem GivesUpOnly.contents {c : Channel} {r : Reading} (h : c.GivesUpOnly r) :
    Event.readings c.contents = [r] := by
  obtain ⟨e, pulled, hs, hq, hr⟩ := h
  simp only [Channel.contents, hs, hq, List.append_nil, hr]

/-- No reading is put back without room for it. -/
def RoomForReadings (c : Channel) : Prop :=
  match c.sending with
  | .refilling rest => Event.readings rest = [] ∨ c.queue.length + rest.length ≤ c.capacity
  | .waiting e rest => Event.readings (e :: rest) = []
  | _ => True

structure Laden (c : Channel) : Prop where
  sinkOpen : c.sending ≠ .idle → c.sinkOpen = true
  fits : c.Fits c.capacity
  room : c.RoomForReadings

theorem readings_makeRoom (pulled : List Event) (e : Event) :
    Event.readings (makeRoom pulled e).1 = (Event.readings (pulled ++ [e])).tail := by
  cases h : pulled.any Event.isMetrics with
  | true =>
    obtain ⟨older, r, newer, rfl, hold⟩ := Event.exists_oldest h
    simp [makeRoom_of_oldest hold, hold]
  | false =>
    have hnone := Event.readings_eq_nil_iff_any.2 h
    cases e <;> simp [makeRoom_of_controls hnone, hnone]

theorem length_makeRoom (pulled : List Event) (e : Event) :
    Event.readings (makeRoom pulled e).1 = [] ∨ (makeRoom pulled e).1.length ≤ pulled.length := by
  cases h : pulled.any Event.isMetrics with
  | true =>
    obtain ⟨older, r, newer, rfl, hold⟩ := Event.exists_oldest h
    exact .inr (by simp [makeRoom_of_oldest hold])
  | false =>
    have hnone := Event.readings_eq_nil_iff_any.2 h
    cases e with
    | metrics r => exact .inl (by simpa [makeRoom_of_controls hnone] using hnone)
    | control k => exact .inl (by simp [makeRoom_of_controls hnone, hnone])

theorem sinkOpen_step (c : Channel) : c.step.sinkOpen = c.sinkOpen := by
  unfold step
  repeat' split
  all_goals rfl

theorem RoomForReadings.step {c : Channel} (h : c.RoomForReadings) (hf : c.Fits c.capacity) :
    c.step.RoomForReadings := by
  have hlen := hf.length_le
  cases hs : c.sending with
  | idle => simp [RoomForReadings, Channel.step, hs]
  | offering e =>
    simp only [Channel.step, hs]
    split_ifs <;> trivial
  | pulling e pulled =>
    simp only [held, hs] at hlen
    cases hq : c.queue with
    | nil =>
      rw [hq] at hlen
      simp only [RoomForReadings, Channel.step, hs, hq]
      exact (length_makeRoom pulled e).imp_right fun hl => by simp at hlen ⊢; omega
    | cons first queue => simp [RoomForReadings, Channel.step, hs, hq]
  | refilling rest =>
    simp only [RoomForReadings, hs] at h
    cases rest with
    | nil => simp [RoomForReadings, Channel.step, hs]
    | cons e rest =>
      simp only [Channel.step, hs]
      split
      next hr =>
        refine h.imp (fun hn => ?_) fun hl => ?_
        · exact Event.readings_eq_nil_iff.2 fun x hx =>
            Event.readings_eq_nil_iff.1 hn x (List.mem_cons_of_mem e hx)
        · simp [push] at hl ⊢
          omega
      next hr =>
        refine h.resolve_right fun hl => hr ?_
        simp [hasRoom] at hl ⊢
        omega
  | waiting e rest =>
    simp only [RoomForReadings, hs] at h
    simp only [Channel.step, hs]
    split
    · exact .inl (Event.readings_eq_nil_iff.2 fun x hx =>
        Event.readings_eq_nil_iff.1 h x (List.mem_cons_of_mem e hx))
    · simpa [RoomForReadings, hs] using h

theorem Laden.step {c : Channel} (h : c.Laden) : c.step.Laden where
  sinkOpen hne := by
    rw [sinkOpen_step]
    exact h.sinkOpen fun hidle => hne (by simp [Channel.step, hidle])
  fits := c.capacity_step.symm ▸ h.fits.step
  room := h.room.step h.fits

theorem readings_step {c : Channel} (h : c.Laden) :
    Event.readings c.contents = c.givenUp ++ Event.readings c.step.contents := by
  have hopen := h.sinkOpen
  cases hs : c.sending with
  | idle => simp [step, givenUp, hs]
  | offering e =>
    have hends : c.receivingEnds ≠ 0 := by simp [receivingEnds, hopen (by simp [hs])]
    simp only [step, hs, hends, if_false]
    split <;> simp [contents, givenUp, hs, push]
  | pulling e pulled =>
    cases hq : c.queue with
    | nil =>
      simp only [step, contents, givenUp, hs, hq, readings_makeRoom, List.append_nil,
        List.nil_append, ← List.drop_one]
      exact (List.take_append_drop 1 _).symm
    | cons first queue => simp [step, contents, givenUp, hs, hq]
  | refilling rest =>
    cases rest with
    | nil => simp [step, contents, givenUp, hs]
    | cons e rest =>
      simp only [step, hs]
      split <;> simp [contents, givenUp, hs, push]
  | waiting e rest =>
    simp only [step, hs]
    split <;> simp [contents, givenUp, hs, push]

/-- No reading is lost in a wait. -/
theorem Laden.expire {c : Channel} (h : c.Laden) :
    c.expire.Laden ∧ Event.readings c.expire.contents = Event.readings c.contents := by
  have hroom := h.room
  cases hs : c.sending with
  | waiting e rest =>
    simp only [RoomForReadings, hs] at hroom
    have hrest : Event.readings rest = [] := Event.readings_eq_nil_iff.2 fun x hx =>
      Event.readings_eq_nil_iff.1 hroom x (List.mem_cons_of_mem e hx)
    have hexpire : c.expire = { c with sending := .refilling rest } := by simp [Channel.expire, hs]
    have hfits := h.fits.expire
    rw [hexpire] at hfits ⊢
    exact ⟨⟨fun _ => h.sinkOpen (by simp [hs]), hfits, .inl hrest⟩,
      by simp [contents, hs, hroom, hrest]⟩
  | idle | offering | pulling | refilling =>
    have hexpire : c.expire = c := by simp [Channel.expire, hs]
    rw [hexpire]
    exact ⟨h, rfl⟩

theorem Laden.offer {c : Channel} (h : c.Laden) (ho : c.sinkOpen = true) (e : Event) :
    (c.offer e).Laden :=
  ⟨fun _ => ho, ⟨Nat.le_refl _, by simpa [held, Channel.offer] using h.fits.idle⟩, trivial⟩

theorem contents_offer {c : Channel} (hs : c.sending = .idle) (e : Event) :
    (c.offer e).contents = c.contents ++ [e] := by
  simp [contents, Channel.offer, hs]

theorem contents_of_queue {c : Channel} {e : Event} {queue : List Event}
    (hq : c.queue = e :: queue) :
    ∃ before after, c.contents = before ++ e :: after ∧
      { c with queue := queue }.contents = before ++ after := by
  cases hs : c.sending with
  | pulling x pulled => exact ⟨pulled, queue ++ [x], by simp [contents, hs, hq]⟩
  | idle | offering | refilling | waiting =>
    exact ⟨[], _, by simp only [contents, hs, hq]; rfl, by simp only [contents]; rfl⟩

theorem Laden.tail {c : Channel} (h : c.Laden) {e : Event} {queue : List Event}
    (hq : c.queue = e :: queue) : Laden { c with queue := queue } := by
  refine ⟨h.sinkOpen, h.fits.tail hq, ?_⟩
  have hroom := h.room
  cases hs : c.sending with
  | refilling rest =>
    simp only [RoomForReadings, hs, hq] at hroom ⊢
    exact hroom.imp_right fun hl => by simp at hl; omega
  | waiting x rest => simpa [RoomForReadings, hs] using hroom
  | idle | offering | pulling => simp [RoomForReadings]

/-- What is given up is the only reading where nothing else is left. -/
theorem givesUpOnly_of_readings {c : Channel} (h : Event.readings c.contents = c.givenUp)
    {r : Reading} (hr : (Event.readings c.contents).getLast? = some r) : c.GivesUpOnly r := by
  rw [h] at hr
  simp only [givenUp] at h hr
  split at hr
  next e pulled hs hq =>
    simp only [contents, hs, hq, List.append_nil] at h
    rw [← h] at hr
    cases hreadings : Event.readings (pulled ++ [e]) with
    | nil => simp [hreadings] at hr
    | cons first rest =>
      rw [hreadings, List.take_succ_cons, List.take_zero] at h
      obtain rfl : rest = [] := (List.cons.inj h).2
      rw [hreadings, List.getLast?_singleton, Option.some_inj] at hr
      exact ⟨e, pulled, hs, hq, hr ▸ hreadings⟩
  next => cases hr

end Channel

namespace Delivery

/-- The reading given up in a step. -/
def goneIn (d : Delivery) : Step → List Reading
  | .sink => d.channel.givenUp
  | _ => []

/-- The readings given up in a run. -/
def gone (d : Delivery) : List Step → List Reading
  | [] => []
  | a :: steps => d.goneIn a ++ (d.step a).gone steps

theorem laden_start (capacity : Nat) : (start capacity).channel.Laden :=
  ⟨fun h => absurd rfl h, fits_start (Nat.le_refl _), trivial⟩

theorem laden_step {d : Delivery} (h : d.channel.Laden) (a : Step) : (d.step a).channel.Laden := by
  cases a with
  | send e =>
    simp only [step]
    split
    next _ ho => exact h.offer ho e
    next => exact h
  | sink => exact h.step
  | expire => exact h.expire.1
  | receive =>
    rcases d.step_receive with hr | ⟨e, queue, _, hq, hr⟩
    · rwa [hr]
    · rw [hr]
      exact h.tail hq
  | closeSink =>
    simp only [step]
    split
    next =>
      have hfits : d.channel.closeSink.Fits d.channel.capacity :=
        ⟨Nat.le_refl _, by simpa [Channel.held, Channel.closeSink] using h.fits.idle⟩
      exact ⟨fun hne => absurd rfl hne, hfits, trivial⟩
    next => exact h
  | closeStream => exact ⟨h.sinkOpen, ⟨h.fits.capacity_le, h.fits.length_le⟩, h.room⟩

/-- A step sends an event, gives up readings, or moves an event to those received. -/
theorem contents_cases {d : Delivery} (h : d.channel.Laden) (a : Step) :
    (∃ e, (d.step a).sent = d.sent ++ [e] ∧ (d.step a).received = d.received ∧
      (d.step a).channel.contents = d.channel.contents ++ [e] ∧ d.goneIn a = []) ∨
    ((d.step a).sent = d.sent ∧ (d.step a).received = d.received ∧
      Event.readings d.channel.contents =
        d.goneIn a ++ Event.readings (d.step a).channel.contents) ∨
    (∃ e before after, (d.step a).sent = d.sent ∧ (d.step a).received = d.received ++ [e] ∧
      d.channel.contents = before ++ e :: after ∧
      (d.step a).channel.contents = before ++ after ∧ d.goneIn a = []) := by
  cases a with
  | send e =>
    simp only [step]
    split
    next hs _ => exact .inl ⟨e, rfl, rfl, Channel.contents_offer hs e, rfl⟩
    next => exact .inr (.inl ⟨rfl, rfl, rfl⟩)
  | sink => exact .inr (.inl ⟨rfl, rfl, Channel.readings_step h⟩)
  | expire => exact .inr (.inl ⟨rfl, rfl, h.expire.2.symm⟩)
  | receive =>
    rcases d.step_receive with hr | ⟨e, queue, _, hq, hr⟩
    · rw [hr]
      exact .inr (.inl ⟨rfl, rfl, rfl⟩)
    · obtain ⟨before, after, hc, hc'⟩ := Channel.contents_of_queue hq
      rw [hr]
      exact .inr (.inr ⟨e, before, after, rfl, rfl, hc, hc', rfl⟩)
  | closeSink =>
    simp only [step]
    split
    next hs =>
      have hcontents : d.channel.closeSink.contents = d.channel.contents := by
        simp [Channel.contents, Channel.closeSink, hs]
      exact .inr (.inl ⟨rfl, rfl, by rw [hcontents]; rfl⟩)
    next => exact .inr (.inl ⟨rfl, rfl, rfl⟩)
  | closeStream => exact .inr (.inl ⟨rfl, rfl, rfl⟩)

/-- A reading that was sent is received, in the channel or given up. -/
def Conserved (d : Delivery) (gone : List Reading) : Prop :=
  (Event.readings (d.received ++ d.channel.contents) ++ gone).Perm (Event.readings d.sent)

theorem Conserved.step {d : Delivery} {gone : List Reading} (h : d.Conserved gone)
    (hl : d.channel.Laden) (a : Step) : (d.step a).Conserved (gone ++ d.goneIn a) := by
  classical
  refine List.perm_iff_count.2 fun r => ?_
  have hcount := h.count_eq r
  rcases contents_cases hl a with ⟨e, hs, hr, hc, hg⟩ | ⟨hs, hr, hc⟩ |
    ⟨e, before, after, hs, hr, hc, hc', hg⟩
  · simp only [hs, hr, hc, hg, Event.readings_append, List.count_append, List.append_nil]
      at hcount ⊢
    omega
  · simp only [hs, hr, hc, Event.readings_append, List.count_append] at hcount ⊢
    omega
  · rw [← List.singleton_append] at hc
    simp only [hs, hr, hc, hc', hg, Event.readings_append, List.count_append, List.append_nil]
      at hcount ⊢
    omega

theorem Conserved.run {d : Delivery} {gone : List Reading} (h : d.Conserved gone)
    (hl : d.channel.Laden) (steps : List Step) :
    (d.run steps).channel.Laden ∧ (d.run steps).Conserved (gone ++ d.gone steps) := by
  induction steps generalizing d gone with
  | nil => exact ⟨hl, by simpa [Delivery.gone] using h⟩
  | cons a steps ih =>
    rw [run_cons, Delivery.gone, ← List.append_assoc]
    exact ih (h.step hl a) (laden_step hl a)

theorem conserved_run (capacity : Nat) (steps : List Step) :
    ((start capacity).run steps).channel.Laden ∧
      ((start capacity).run steps).Conserved ((start capacity).gone steps) := by
  have hstart : (start capacity).Conserved [] := List.Perm.refl _
  simpa using hstart.run (laden_start capacity) steps

theorem mem_gone {d : Delivery} {before : List Step} (after : List Step) {r : Reading}
    (h : r ∈ (d.run before).channel.givenUp) : r ∈ d.gone (before ++ .sink :: after) := by
  induction before generalizing d with
  | nil => exact List.mem_append_left _ h
  | cons a before ih => exact List.mem_append_right _ (ih h)

theorem readings_sent_cases (d : Delivery) (a : Step) :
    Event.readings (d.step a).sent = Event.readings d.sent ∨
      ∃ r, (d.step a).sent = d.sent ++ [.metrics r] := by
  rcases d.step_cases a with ⟨e, hs, -⟩ | ⟨hs, -⟩ | ⟨-, e, hs, -⟩
  · cases e with
    | metrics r => exact .inr ⟨r, hs⟩
    | control k => exact .inl (by simp [hs])
  · exact .inl (by rw [hs])
  · exact .inl (by rw [hs])

theorem readings_sent_step (d : Delivery) (a : Step) :
    (Event.readings d.sent).Sublist (Event.readings (d.step a).sent) := by
  rcases d.readings_sent_cases a with hs | ⟨r, hs⟩
  · rw [hs]
  · rw [hs, Event.readings_append]
    exact List.sublist_append_left _ _

theorem readings_sent_run (d : Delivery) (steps : List Step) :
    (Event.readings d.sent).Sublist (Event.readings (d.run steps).sent) := by
  induction steps generalizing d with
  | nil => exact List.Sublist.refl _
  | cons a steps ih => exact (d.readings_sent_step a).trans (ih (d.step a))

theorem getLast?_of_sublist {α : Type} {as bs : List α} {a : α} (ha : a ∉ as)
    (h : bs.Sublist (as ++ [a])) (hb : a ∈ bs) : bs.getLast? = some a := by
  obtain ⟨first, last, rfl, hfirst, hlast⟩ := List.sublist_append_iff.1 h
  rcases List.sublist_singleton.1 hlast with rfl | rfl
  · rw [List.append_nil] at hb
    exact absurd (hfirst.subset hb) ha
  · exact List.getLast?_concat

/-- Without another send there is no reading in the channel where there was none. -/
theorem readings_contents_run {d : Delivery} (hl : d.channel.Laden) {steps : List Step}
    (hs : Event.readings (d.run steps).sent = Event.readings d.sent)
    (hc : Event.readings d.channel.contents = []) :
    Event.readings (d.run steps).channel.contents = [] := by
  induction steps generalizing d with
  | nil => exact hc
  | cons a steps ih =>
    have hfirst : Event.readings (d.step a).sent = Event.readings d.sent := by
      refine (d.readings_sent_step a).antisymm ?_ |>.symm
      exact hs ▸ (d.step a).readings_sent_run steps
    refine ih (laden_step hl a) (hs.trans hfirst.symm) ?_
    rcases contents_cases hl a with ⟨e, hsent, -, hc', -⟩ | ⟨-, -, hc'⟩ |
      ⟨e, b, c, -, -, hb, hc', -⟩
    · have hnone : Event.readings [e] = [] := by simpa [hsent] using hfirst
      rw [hc', Event.readings_append, hc, hnone]
      rfl
    · rw [hc] at hc'
      exact (List.append_eq_nil_iff.1 hc'.symm).2
    · rw [hb, Event.readings_eq_nil_iff] at hc
      rw [hc', Event.readings_eq_nil_iff]
      exact fun x hx => hc x (by simp at hx ⊢; tauto)

/-- The reading is received, or it is the last on its way. -/
def Reaches (d : Delivery) (r : Reading) : Prop :=
  r ∈ Event.readings d.received ∨ (Event.readings d.channel.contents).getLast? = some r

theorem reaches_of_sent {d : Delivery} (hl : d.channel.Laden) {a : Step} {r : Reading}
    (hs : (d.step a).sent = d.sent ++ [.metrics r]) : (d.step a).Reaches r := by
  have hne : (d.step a).sent ≠ d.sent := by simp [hs]
  rcases contents_cases hl a with ⟨e, hsent, -, hc, -⟩ | ⟨hsent, -⟩ | ⟨_, _, _, hsent, -⟩
  · obtain rfl := List.singleton_inj.1 (List.append_cancel_left (hsent.symm.trans hs))
    exact .inr (by simp [hc])
  · exact absurd hsent hne
  · exact absurd hsent hne

/-- Only where the sink gives up the only reading in its hand, the last one on its way is gone. -/
theorem Reaches.step {d : Delivery} {r : Reading} (h : d.Reaches r) (hl : d.channel.Laden)
    {a : Step} (hs : Event.readings (d.step a).sent = Event.readings d.sent)
    (hk : a = .sink → ¬ d.channel.GivesUpOnly r) : (d.step a).Reaches r := by
  rcases contents_cases hl a with ⟨e, hsent, hr, hc, -⟩ | ⟨-, hr, hc⟩ |
    ⟨e, before, after, -, hr, hc, hc', -⟩
  · have hnone : Event.readings [e] = [] := by simpa [hsent] using hs
    rwa [Reaches, hr, hc, Event.readings_append, hnone, List.append_nil]
  · rw [Reaches, hr]
    refine h.imp_right fun hlast => ?_
    cases hleft : Event.readings (d.step a).channel.contents with
    | nil =>
      rw [hleft, List.append_nil] at hc
      cases a with
      | sink => exact absurd (Channel.givesUpOnly_of_readings hc hlast) (hk rfl)
      | send | expire | receive | closeSink | closeStream =>
        rw [hc] at hlast
        cases hlast
    | cons first rest =>
      rwa [hc, hleft, List.getLast?_append_of_ne_nil _ (List.cons_ne_nil _ _)] at hlast
  · rw [Reaches, hr, hc']
    rcases h with hin | hlast
    · exact .inl (by simp [hin])
    · rw [hc] at hlast
      cases e with
      | control k => exact .inr (by simpa using hlast)
      | metrics x =>
        cases hafter : Event.readings after with
        | nil => exact .inl (by simp [hafter] at hlast; simp [hlast])
        | cons first rest =>
          refine .inr ?_
          simpa [hafter, List.getLast?_append, List.getLast?_cons] using hlast

/-- The reading is given up as the only one in the sink's hand, and none is sent after that. -/
def LosesLatest (d : Delivery) (steps : List Step) (r : Reading) : Prop :=
  ∃ before after, steps = before ++ .sink :: after ∧ (d.run before).channel.GivesUpOnly r ∧
    Event.readings (d.run steps).sent = Event.readings (d.run before).sent

theorem LosesLatest.snoc {d : Delivery} {steps : List Step} {r : Reading}
    (h : d.LosesLatest steps r) {a : Step}
    (hs : Event.readings (d.run (steps ++ [a])).sent = Event.readings (d.run steps).sent) :
    d.LosesLatest (steps ++ [a]) r := by
  obtain ⟨before, after, rfl, hg, hsame⟩ := h
  exact ⟨before, after ++ [a], by simp, hg, hs.trans hsame⟩

section latest

variable {capacity : Nat} {steps : List Step} {earlier : List Reading} {r : Reading}

/-- As long as the latest reading is not given up, it is received or the last in the channel. -/
theorem latest_kept (hs : Event.readings ((start capacity).run steps).sent = earlier ++ [r])
    (hk : ¬ (start capacity).LosesLatest steps r) : ((start capacity).run steps).Reaches r := by
  induction steps using List.reverseRecOn generalizing earlier with
  | nil => simp [start] at hs
  | append_singleton steps a ih =>
    have hl := (conserved_run capacity steps).1
    have hrun : (start capacity).run (steps ++ [a]) = ((start capacity).run steps).step a := by
      rw [run_append, run_cons, run_nil]
    rw [hrun] at hs ⊢
    rcases readings_sent_cases ((start capacity).run steps) a with hsame | ⟨x, hsent⟩
    · rw [hsame] at hs
      rw [← hrun] at hsame
      have hbefore := ih hs fun hlose => hk (hlose.snoc hsame)
      refine hbefore.step hl (hrun ▸ hsame) fun ha hgives => hk ?_
      subst ha
      exact ⟨steps, [], rfl, hgives, hsame⟩
    · rw [hsent, Event.readings_append] at hs
      obtain rfl : x = r := (List.cons.inj (List.append_inj' hs rfl).2).1
      exact reaches_of_sent hl hsent

/-- Where the latest reading is given up, the stream gets none but earlier ones. -/
theorem latest_lost (hs : Event.readings ((start capacity).run steps).sent = earlier ++ [r])
    (hk : (start capacity).LosesLatest steps r) :
    Event.readings ((start capacity).run steps).channel.contents = [] ∧
      (Event.readings ((start capacity).run steps).received).Subperm earlier := by
  obtain ⟨before, after, rfl, hg, hsame⟩ := hk
  obtain ⟨hl, -⟩ := conserved_run capacity before
  have hnone : Event.readings
      ((start capacity).run (before ++ .sink :: after)).channel.contents = [] := by
    have hstep := Channel.readings_step hl
    rw [hg.contents, hg.givenUp] at hstep
    rw [run_append, run_cons] at hsame ⊢
    exact readings_contents_run (laden_step hl .sink) hsame (List.cons.inj hstep).2.symm
  refine ⟨hnone, ?_⟩
  have hgone : r ∈ (start capacity).gone (before ++ .sink :: after) :=
    mem_gone after (by simp [hg.givenUp])
  classical
  refine List.subperm_ext_iff.2 fun x _ => ?_
  have hcount := (conserved_run capacity (before ++ .sink :: after)).2.count_eq x
  rw [hs, Event.readings_append, hnone, List.append_nil, List.count_append, List.count_append]
    at hcount
  by_cases hx : x = r
  · subst hx
    have hpos := List.count_pos_iff.2 hgone
    rw [List.count_singleton_self] at hcount
    omega
  · rw [List.count_singleton, if_neg (by simpa using Ne.symm hx)] at hcount
    omega

/-- The latest reading is received or the last in the channel unless the sink gave it up as the only
reading in its hand. A stream that takes the rest then ends with it, provided no reading has
overtaken another; otherwise it ends with an earlier one. -/
theorem latest_reading (hs : Event.readings ((start capacity).run steps).sent = earlier ++ [r]) :
    (¬ (start capacity).LosesLatest steps r →
      r ∈ Event.readings ((start capacity).run steps).received ∨
        (Event.readings ((start capacity).run steps).channel.contents).getLast? = some r) ∧
    ((start capacity).LosesLatest steps r →
      Event.readings ((start capacity).run steps).channel.contents = [] ∧
        (Event.readings ((start capacity).run steps).received).Subperm earlier) ∧
    (¬ (start capacity).LosesLatest steps r → r ∉ earlier →
      ((start capacity).run steps).channel.sending = .idle →
      ¬ (start capacity).Overtakes Event.isMetrics steps →
      (Event.readings (((start capacity).run steps).received ++
        ((start capacity).run steps).channel.queue)).getLast? = some r) := by
  refine ⟨latest_kept hs, latest_lost hs, fun hkept hr hidle hovertakes => ?_⟩
  have hmem : r ∈ Event.readings (((start capacity).run steps).received ++
      ((start capacity).run steps).channel.queue) := by
    have hcontents : ((start capacity).run steps).channel.contents =
        ((start capacity).run steps).channel.queue := by simp only [Channel.contents, hidle]
    rw [Event.readings_append, List.mem_append, ← hcontents]
    exact (latest_kept hs hkept).imp_right List.mem_of_getLast?
  refine getLast?_of_sublist hr ?_ hmem
  have horder := ((inOrder_start Event.isMetrics capacity).run hovertakes).filterMap
    Event.reading?
  change (Event.readings _).Sublist (Event.readings _) at horder
  simpa only [Event.readings_filter, Channel.inFlight, hidle, hs] using horder

end latest

/-- A control event takes the place of the only reading. -/
def displacing : List Step :=
  [.send (reading 5), .sink, .send (.control .stopped), .sink, .sink, .sink, .sink, .sink]

theorem latest_reading_displacing : ∃ r,
    Event.readings ((start 1).run displacing).sent = [] ++ [r] ∧
      (start 1).LosesLatest displacing r ∧
      Event.readings ((start 1).run displacing).channel.contents = [] := by
  have hs : Event.readings ((start 1).run displacing).sent =
      [] ++ [{ (default : Reading) with accepted := 5 }] := rfl
  have hlose : (start 1).LosesLatest displacing { (default : Reading) with accepted := 5 } :=
    ⟨displacing.take 5, [.sink, .sink], rfl, ⟨_, _, rfl, rfl, rfl⟩, rfl⟩
  exact ⟨_, hs, hlose, ((latest_reading hs).2.1 hlose).1⟩

theorem not_always_latest : ¬ ∀ (capacity : Nat) (steps : List Step) (earlier : List Reading)
    (r : Reading), Event.readings ((start capacity).run steps).sent = earlier ++ [r] →
    ((start capacity).run steps).channel.sending = .idle →
    r ∈ Event.readings (((start capacity).run steps).received ++
      ((start capacity).run steps).channel.queue) := by
  intro h
  have hmem := h 1 displacing [] { (default : Reading) with accepted := 5 } rfl rfl
  cases hmem

end Delivery
end RigWarden
