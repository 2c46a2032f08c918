import NamedContent.Proofs.Flow.Step

/-! Moments that follow one another.

The history of a run is a trail from the flow the run starts with to the flow
it ends with. What holds at the start and is kept by every step, in the light
of the moments before it, holds at the end. -/

set_option autoImplicit false

namespace NamedContent.Flow

variable {τ : Type} [Transport τ]

inductive Trail : Flow τ → List (Moment τ) → Flow τ → Prop where
  | still (flow : Flow τ) : Trail flow [] flow
  | move {before after final : Flow τ} {event : Event} {rest : List (Moment τ)}
      (step : before.Step event after) (later : Trail after rest final) :
      Trail before (⟨before, event, after⟩ :: rest) final

namespace Trail

variable {start middle final : Flow τ} {past later : List (Moment τ)}

theorem single {before after : Flow τ} {event : Event} (step : before.Step event after) :
    Trail before [⟨before, event, after⟩] after :=
  .move step (.still after)

theorem append (first : Trail start past middle) (second : Trail middle later final) :
    Trail start (past ++ later) final := by
  induction first with
  | still => exact second
  | move step _ ih => exact .move step (ih second)

theorem split (trail : Trail start (past ++ later) final) :
    ∃ middle, Trail start past middle ∧ Trail middle later final := by
  induction past generalizing start with
  | nil => exact ⟨start, .still start, trail⟩
  | cons moment past ih =>
    cases trail with
    | move step rest =>
      obtain ⟨middle, first, second⟩ := ih rest
      exact ⟨middle, .move step first, second⟩

theorem at_moment {moment : Moment τ} (trail : Trail start (past ++ moment :: later) final) :
    Trail start past moment.before ∧ moment.before.Step moment.event moment.after ∧
      Trail moment.after later final := by
  obtain ⟨middle, first, second⟩ := trail.split
  cases second with
  | move step rest => exact ⟨first, step, rest⟩

/-- What the steps keep, given all moments before them, holds at the end. -/
theorem carries {moments past rest : List (Moment τ)} (trail : Trail middle rest final)
    (whole : moments = past ++ rest) (Holds : List (Moment τ) → Flow τ → Prop) (held : Holds past middle)
    (kept : ∀ {past later : List (Moment τ)} {moment : Moment τ}, moments = past ++ moment :: later →
      moment.before.Step moment.event moment.after → Holds past moment.before →
      Holds (past ++ [moment]) moment.after) :
    Holds moments final := by
  induction trail generalizing past with
  | still flow =>
    rw [List.append_nil] at whole
    exact whole ▸ held
  | move step _ ih =>
    have next := kept whole step held
    exact ih (whole.trans (List.append_cons _ _ _)) next

theorem keeps {moments : List (Moment τ)} (trail : Trail start moments final) (Holds : Flow τ → Prop)
    (first : Holds start)
    (kept : ∀ {before after : Flow τ} {event : Event}, before.Step event after → Holds before → Holds after) :
    Holds final :=
  trail.carries (List.nil_append moments).symm (fun _ flow => Holds flow) first fun _ step held => kept step held

end Trail

theorem trail_putMoments (flow : Flow τ) (object : ContentObject) (now : Timestamp) :
    Trail flow (flow.putMoments object now) (flow.put object now).2 := by
  obtain ⟨weighing, judged⟩ := flow.admission_cases object now
  cases admitted : flow.admission object now with
  | mk answer weighed =>
    rw [admitted] at weighing judged
    simp only at weighing judged
    have before : Trail flow (if flow.weighs object then [⟨flow, .expired now, weighed⟩] else []) weighed := by
      split
      · rename_i sees
        rw [if_pos sees] at weighing
        exact weighing ▸ .single (.expire now)
      · rename_i blind
        rw [if_neg blind] at weighing
        exact weighing ▸ .still flow
    have outcome : weighed.Step (putEvent object answer (flow.put object now).1) (flow.put object now).2 := by
      cases answer with
      | error failure => simpa [put, admitted, putEvent] using Step.turnAway judged
      | ok admission => simpa [put, admitted] using step_commit judged
    simpa [putMoments, admitted] using before.append (.single outcome)

theorem trail_askMoments (flow : Flow τ) (now : Timestamp) (answered : Nat) (interests : List Interest) :
    Trail flow (flow.askMoments now interests) (flow.askEach now answered interests).2 := by
  induction interests generalizing flow answered with
  | nil => exact .still flow
  | cons interest rest ih =>
    have step := flow.step_askOne interest now
    cases asked : flow.askOne interest now with
    | mk reply after =>
      rw [asked] at step
      cases reply with
      | error failure => simpa [askMoments, askEach, asked] using Trail.single step
      | ok hit => simpa [askMoments, askEach, asked] using Trail.move step (ih after _)

theorem trail_moments (flow : Flow τ) (request : Request) :
    Trail flow (flow.moments request) (flow.handle request).2 := by
  cases request with
  | addNamespace name => exact .single (.addNamespace name)
  | removeNamespace name => exact .single (.removeNamespace name)
  | put object now => exact flow.trail_putMoments object now
  | ask interests now => exact .move (.expire now) ((flow.expire now).trail_askMoments now 0 interests)
  | setHighwater highwater => exact .single (.setHighwater highwater)
  | setDrainTimeout timeout => exact .single (.setDrainTimeout timeout)
  | setEnabled enabled => exact .single (.setEnabled enabled)
  | close => exact .single .close

theorem trail_history (flow : Flow τ) (requests : List Request) :
    Trail flow (flow.history requests) (flow.run requests).2 := by
  induction requests generalizing flow with
  | nil => exact .still flow
  | cons request rest ih => exact (flow.trail_moments request).append (ih (flow.handle request).2)

end NamedContent.Flow
